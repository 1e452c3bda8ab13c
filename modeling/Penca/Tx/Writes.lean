import Penca.Query.Resolve

/-!
# `Tx.Writes` — the log rows of an open transaction

`WriteData` calls of a transaction insert into the upsert and delete logs under a primary key derived from
`(row_uuid, tx_uuid)`: a second upsert of a row rewrites the user columns of its log row, a second delete
does nothing, and in both cases the log row keeps the `write_seq_num` of its first insert. Reads decide
between the upsert and the delete of a row by `write_seq_num`: the log whose first insert is later wins,
whichever operation came last.

## Contents
- **Inserts** with their two conflict rules (`TxWrites.insert`).
- **Calls**: `apply_change` runs the deletes of a call before its upserts.
- **What is stored**: per row and log, the last change under the first `write_seq_num`.
- **Main result:** the row is read as its last operation left it if and only if the first and the last
  operation on it differ in kind, or there is only one kind (`resolves_last_iff`).
-/

namespace Penca

variable {R V : Type} [DecidableEq R]

/-! ## Inserts -/

/-- The primary key `version_uuid` within one transaction: the row and the log. -/
def RowWrite.key (w : RowWrite R V) : R × LogKind := (w.rowUuid, w.change.kind)

/-- What the insert of `w` makes of a log row: `ON CONFLICT DO UPDATE` of the user columns in the upsert log,
    `DO NOTHING` in the delete log. -/
def RowWrite.onConflict (w stored : RowWrite R V) : RowWrite R V :=
  match w.change with
  | .upsert v => if stored.key = w.key then { stored with change := .upsert v } else stored
  | .delete   => stored

omit [DecidableEq R] in
theorem RowWrite.key_of_change {w : RowWrite R V} {v : V} (h : w.change = .upsert v) (stored : RowWrite R V)
    (hkey : stored.key = w.key) : ({ stored with change := .upsert v } : RowWrite R V).key = stored.key := by
  have hkind : stored.change.kind = .upsertLog := by
    rw [show stored.change.kind = w.change.kind from congrArg Prod.snd hkey, h]
    rfl
  exact Prod.ext rfl hkind.symm

@[simp] theorem RowWrite.onConflict_key (w stored : RowWrite R V) : (w.onConflict stored).key = stored.key := by
  unfold onConflict
  split
  · rename_i v hv
    split
    · rename_i hkey
      exact key_of_change hv stored hkey
    · rfl
  · rfl

/-- One row of `insert_upserts` or `insert_deletes`. The value of a row is the whole row: a batch that names only
    some of the columns is not modelled (`DO UPDATE` would set those and keep the others). -/
def TxWrites.insert (t : TxWrites R V) (w : RowWrite R V) : TxWrites R V :=
  if h : w.key ∈ t.writes.map RowWrite.key then
    { writes := t.writes.map w.onConflict
      oncePerLog := by
        have hkeys : (t.writes.map w.onConflict).map RowWrite.key = t.writes.map RowWrite.key := by
          rw [List.map_map]
          exact List.map_congr_left (fun stored _ => w.onConflict_key stored)
        have hnodup : ((t.writes.map w.onConflict).map RowWrite.key).Nodup := hkeys ▸ t.oncePerLog
        exact hnodup }
  else
    { writes := t.writes ++ [w]
      oncePerLog := by
        have hnodup : ((t.writes ++ [w]).map RowWrite.key).Nodup := by
          rw [List.map_append]
          refine List.nodup_append.mpr ⟨t.oncePerLog, by simp, ?_⟩
          rintro k hk k' hk' rfl
          rw [List.map_singleton, List.mem_singleton] at hk'
          exact h (hk' ▸ hk)
        exact hnodup }

/-- Insert rows one after the other. -/
def TxWrites.insertAll (t : TxWrites R V) (ws : List (RowWrite R V)) : TxWrites R V := ws.foldl TxWrites.insert t

/-- A transaction that has written nothing. -/
def TxWrites.empty : TxWrites R V := ⟨[], List.nodup_nil⟩

/-! ## Calls -/

/-- The `Change` of a `WriteData` request: batches of rows to delete and of rows to upsert. No batch names a row
    twice. -/
structure DataChange (R V : Type) where
  deletes : List (List R)
  upserts : List (List (R × V))
  deletesOnce : ∀ batch ∈ deletes, batch.Nodup
  upsertsOnce : ∀ batch ∈ upserts, (batch.map Prod.fst).Nodup

/-- A call that only deletes. -/
def DataChange.ofDeletes (deletes : List (List R)) (h : ∀ batch ∈ deletes, batch.Nodup) : DataChange R V :=
  ⟨deletes, [], h, by simp⟩

/-- A call that deletes one row. -/
def DataChange.deleteRow (r : R) : DataChange R V := .ofDeletes [[r]] (by simp)

/-- A call that upserts one row. -/
def DataChange.upsertRow (r : R) (v : V) : DataChange R V := ⟨[], [[(r, v)]], by simp, by simp⟩

/-- The operations of a call, in the order `apply_change` inserts them: deletes first. -/
def DataChange.ops (change : DataChange R V) : List (R × Change V) :=
  change.deletes.flatten.map (fun r => (r, .delete)) ++ change.upserts.flatten.map (fun p => (p.1, .upsert p.2))

/-- What is assumed of the sequence: a later draw gives a greater number, whoever draws in between. -/
def Increasing (nextval : Nat → Int) : Prop := ∀ i j, i < j → nextval i < nextval j

theorem increasing_natCast : Increasing Nat.cast := fun _ _ h => Int.ofNat_lt.mpr h

/-- The log rows of some operations: each insert draws `write_seq_num` from the sequence of the table, the one
    after the first `n` draws and so on. -/
def stampOps (nextval : Nat → Int) (n : Nat) (ops : List (R × Change V)) : List (RowWrite R V) :=
  (ops.zipIdx n).map (fun o => ⟨o.1.1, o.1.2, nextval o.2⟩)

/-- `apply_change`. -/
def TxWrites.applyChange (t : TxWrites R V) (nextval : Nat → Int) (n : Nat) (change : DataChange R V) :
    TxWrites R V :=
  t.insertAll (stampOps nextval n change.ops)

/-- The `WriteData` calls of a transaction, one after the other. -/
def TxWrites.writeData (nextval : Nat → Int) : Nat → TxWrites R V → List (DataChange R V) → TxWrites R V
  | _, t, []             => t
  | n, t, change :: rest => writeData nextval (n + change.ops.length) (t.applyChange nextval n change) rest

/-- All operations of the calls, in order. -/
def opsOf (calls : List (DataChange R V)) : List (R × Change V) := calls.flatMap DataChange.ops

/-- The operations on one row. -/
def changesOf (calls : List (DataChange R V)) (r : R) : List (Change V) :=
  ((opsOf calls).filter (fun o => o.1 = r)).map Prod.snd

/-- The calls insert the rows of all their operations. -/
theorem TxWrites.writeData_eq (nextval : Nat → Int) (n : Nat) (t : TxWrites R V) (calls : List (DataChange R V)) :
    TxWrites.writeData nextval n t calls = t.insertAll (stampOps nextval n (opsOf calls)) := by
  induction calls generalizing n t with
  | nil => rfl
  | cons change rest ih =>
      have hops : opsOf (change :: rest) = change.ops ++ opsOf rest := List.flatMap_cons
      have hstamp : stampOps nextval n (opsOf (change :: rest)) =
          stampOps nextval n change.ops ++ stampOps nextval (n + change.ops.length) (opsOf rest) := by
        rw [hops, stampOps, List.zipIdx_append, List.map_append]
        rfl
      rw [writeData, ih, hstamp, applyChange, insertAll, insertAll, insertAll, List.foldl_append]

/-! ## What is stored -/

/-- The log row under a key. -/
def TxWrites.find (t : TxWrites R V) (k : R × LogKind) : Option (RowWrite R V) :=
  t.writes.find? (fun w => w.key = k)

omit [DecidableEq R] in
theorem TxWrites.eq_of_key {t : TxWrites R V} {w w' : RowWrite R V} (hw : w ∈ t.writes) (hw' : w' ∈ t.writes)
    (hkey : w.key = w'.key) : w = w' :=
  List.inj_on_of_nodup_map (f := RowWrite.key) t.oncePerLog hw hw' hkey

theorem TxWrites.find_eq_some_iff {t : TxWrites R V} {k : R × LogKind} {w : RowWrite R V} :
    t.find k = some w ↔ w ∈ t.writes ∧ w.key = k := by
  constructor
  · intro h
    exact ⟨List.mem_of_find?_eq_some h, by simpa using List.find?_some h⟩
  · rintro ⟨hw, rfl⟩
    cases hfind : t.find w.key with
    | none =>
        have := List.find?_eq_none.mp hfind w hw
        simp at this
    | some w' =>
        have hkey : w'.key = w.key := by simpa using List.find?_some hfind
        rw [eq_of_key (List.mem_of_find?_eq_some hfind) hw hkey]

/-- Both conflict rules amount to this: the change is replaced, the `write_seq_num` stays. -/
theorem RowWrite.onConflict_of_key {w stored : RowWrite R V} (h : stored.key = w.key) :
    w.onConflict stored = { stored with change := w.change } := by
  have hkind : stored.change.kind = w.change.kind := congrArg Prod.snd h
  unfold onConflict
  cases hw : w.change with
  | upsert v => simp [h]
  | delete =>
      cases hs : stored.change with
      | upsert v =>
          rw [hw, hs] at hkind
          cases hkind
      | delete =>
          show stored = { stored with change := .delete }
          rw [← hs]

theorem TxWrites.find_eq_none_iff {t : TxWrites R V} {k : R × LogKind} :
    t.find k = none ↔ k ∉ t.writes.map RowWrite.key := by
  rw [find, List.find?_eq_none, List.mem_map]
  simp

/-- An insert in conflict rewrites the log rows where they stand. -/
theorem TxWrites.find_insert_of_mem {t : TxWrites R V} {w : RowWrite R V}
    (hmem : w.key ∈ t.writes.map RowWrite.key) (k : R × LogKind) :
    (t.insert w).find k = (t.find k).map w.onConflict := by
  rw [insert, dif_pos hmem, find, List.find?_map]
  simp only [Function.comp_def, RowWrite.onConflict_key]
  rfl

theorem RowWrite.onConflict_of_key_ne {w stored : RowWrite R V} (h : stored.key ≠ w.key) :
    w.onConflict stored = stored := by
  unfold onConflict
  split
  · rw [if_neg h]
  · rfl

theorem TxWrites.find_insert (t : TxWrites R V) (w : RowWrite R V) (k : R × LogKind) :
    (t.insert w).find k =
      if w.key = k then
        some (match t.find k with
          | some stored => { stored with change := w.change }
          | none        => w)
      else t.find k := by
  by_cases hmem : w.key ∈ t.writes.map RowWrite.key
  · rw [find_insert_of_mem hmem]
    cases hfind : t.find k with
    | none =>
        have hk : w.key ≠ k := fun h => find_eq_none_iff.mp hfind (h ▸ hmem)
        rw [if_neg hk, Option.map_none]
    | some stored =>
        have hkey := (find_eq_some_iff.mp hfind).2
        rw [Option.map_some]
        by_cases hk : w.key = k
        · rw [if_pos hk, RowWrite.onConflict_of_key (hkey.trans hk.symm)]
        · rw [if_neg hk, RowWrite.onConflict_of_key_ne (fun h => hk (h.symm.trans hkey))]
  · rw [insert, dif_neg hmem, find, List.find?_append]
    by_cases hk : w.key = k
    · -- Nothing is stored under the key, so the search reaches the new row.
      have hnone : t.find k = none := find_eq_none_iff.mpr (hk ▸ hmem)
      rw [if_pos hk, hnone, show t.writes.find? (fun w' => w'.key = k) = none from hnone]
      simp [hk]
    · simp [hk, find]

/-- What inserts under one key leave: the last change under the first `write_seq_num`. -/
def storedOf (ws : List (RowWrite R V)) : Option (RowWrite R V) :=
  ws.head?.bind (fun first => ws.getLast?.map (fun last => { first with change := last.change }))

omit [DecidableEq R] in
theorem storedOf_eq_some_iff {ws : List (RowWrite R V)} {w : RowWrite R V} :
    storedOf ws = some w ↔ ∃ first, ws.head? = some first ∧ ∃ last, ws.getLast? = some last ∧
      { first with change := last.change } = w := by
  simp only [storedOf, Option.bind_eq_some_iff, Option.map_eq_some_iff]

omit [DecidableEq R] in
theorem storedOf_append_singleton (ws : List (RowWrite R V)) (w : RowWrite R V) :
    storedOf (ws ++ [w]) = some (match storedOf ws with
      | some stored => { stored with change := w.change }
      | none        => w) := by
  cases ws with
  | nil => rfl
  | cons first rest =>
      obtain ⟨last, hlast⟩ : ∃ last, (first :: rest).getLast? = some last :=
        ⟨_, List.getLast?_eq_some_getLast (List.cons_ne_nil first rest)⟩
      have hsnoc : (first :: rest ++ [w]).getLast? = some w := List.getLast?_concat
      rw [storedOf, storedOf, hlast, hsnoc]
      rfl

/-- **What is stored**: under each key, the last change with the first `write_seq_num`. -/
theorem TxWrites.find_insertAll_empty (ws : List (RowWrite R V)) (k : R × LogKind) :
    (TxWrites.empty.insertAll ws).find k = storedOf (ws.filter (fun w => w.key = k)) := by
  induction ws using List.reverseRecOn with
  | nil => rfl
  | append_singleton ws w ih =>
      have hsnoc : TxWrites.empty.insertAll (ws ++ [w]) = (TxWrites.empty.insertAll ws).insert w := by
        rw [insertAll, List.foldl_append]
        rfl
      rw [hsnoc, find_insert, ih, List.filter_append]
      by_cases hk : w.key = k
      · rw [if_pos hk, List.filter_cons_of_pos (by simpa using hk), List.filter_nil, storedOf_append_singleton]
      · rw [if_neg hk, List.filter_cons_of_neg (by simpa using hk), List.filter_nil, List.append_nil]

/-! ## The newest log row of a row -/

/-- The last operation on a row is of another kind than the first, or there is only one kind. -/
def LastDecides (changes : List (Change V)) : Prop :=
  ∀ first ∈ changes.head?, ∀ last ∈ changes.getLast?,
    first.kind ≠ last.kind ∨ ∀ c ∈ changes, c.kind = last.kind

instance (changes : List (Change V)) : Decidable (LastDecides changes) :=
  inferInstanceAs (Decidable (∀ first ∈ changes.head?, ∀ last ∈ changes.getLast?,
    first.kind ≠ last.kind ∨ ∀ c ∈ changes, c.kind = last.kind))

/-- The inserts of one row. -/
def insertsOf (ws : List (RowWrite R V)) (r : R) : List (RowWrite R V) := ws.filter (fun w => w.rowUuid = r)

/-- The inserts of one row into one log. -/
def insertsInto (ws : List (RowWrite R V)) (r : R) (k : LogKind) : List (RowWrite R V) :=
  (insertsOf ws r).filter (fun w => w.change.kind = k)

/-- `w` is the log row of row `r` with the greatest `write_seq_num`. -/
structure NewestWrite (t : TxWrites R V) (r : R) (w : RowWrite R V) : Prop where
  mem : w ∈ t.writes
  row : w.rowUuid = r
  newest : ∀ w' ∈ t.writes, w'.rowUuid = r → w' = w ∨ w'.writeSeqNum < w.writeSeqNum

theorem LogKind.eq_of_ne_of_ne {a b c : LogKind} (ha : a ≠ c) (hb : b ≠ c) : a = b := by
  cases a <;> cases b <;> cases c <;> first | rfl | contradiction

omit [DecidableEq R] in
theorem Change.kind_eq_of_effect_eq {c c' : Change V} (h : c.effect = c'.effect) : c.kind = c'.kind := by
  cases c <;> cases c' <;> first | rfl | cases h

section NewestWrite

variable {ws : List (RowWrite R V)} {r : R} {first last : RowWrite R V}

theorem filter_key_eq_insertsInto (ws : List (RowWrite R V)) (r : R) (k : LogKind) :
    ws.filter (fun w => w.key = (r, k)) = insertsInto ws r k := by
  rw [insertsInto, insertsOf, List.filter_filter]
  refine List.filter_congr (fun w _ => ?_)
  simp only [RowWrite.key, Prod.mk.injEq, Bool.decide_and, Bool.and_comm]

/-- A log row has the `write_seq_num` of the first insert of its row and kind. -/
theorem exists_insert_of_mem {w : RowWrite R V} (hw : w ∈ (TxWrites.empty.insertAll ws).writes)
    (hrow : w.rowUuid = r) :
    ∃ a, (insertsInto ws r w.change.kind).head? = some a ∧ w.writeSeqNum = a.writeSeqNum := by
  have hfind := TxWrites.find_eq_some_iff.mpr ⟨hw, rfl⟩
  rw [TxWrites.find_insertAll_empty, RowWrite.key, hrow, filter_key_eq_insertsInto] at hfind
  obtain ⟨a, ha, b, -, hab⟩ := storedOf_eq_some_iff.mp hfind
  exact ⟨a, ha, (congrArg RowWrite.writeSeqNum hab).symm⟩

/-- Inserts of a row and kind leave a log row with the last change and the first `write_seq_num`. -/
theorem exists_mem_of_inserts {k : LogKind} {a b : RowWrite R V} (ha : (insertsInto ws r k).head? = some a)
    (hb : (insertsInto ws r k).getLast? = some b) :
    ∃ w ∈ (TxWrites.empty.insertAll ws).writes, w.key = (r, k) ∧ w.change = b.change ∧
      w.writeSeqNum = a.writeSeqNum := by
  have hfind : (TxWrites.empty.insertAll ws).find (r, k) = some { a with change := b.change } := by
    rw [TxWrites.find_insertAll_empty, filter_key_eq_insertsInto]
    exact storedOf_eq_some_iff.mpr ⟨a, ha, b, hb, rfl⟩
  obtain ⟨hmem, hkey⟩ := TxWrites.find_eq_some_iff.mp hfind
  exact ⟨_, hmem, hkey, rfl, rfl⟩

/-- The last insert of the row is the last one of its kind. -/
theorem getLast?_insertsInto (hlast : (insertsOf ws r).getLast? = some last) :
    (insertsInto ws r last.change.kind).getLast? = some last := by
  obtain ⟨before, hbefore⟩ := List.getLast?_eq_some_iff.mp hlast
  rw [insertsInto, hbefore, List.filter_append, List.filter_cons_of_pos (by simp), List.filter_nil,
    List.getLast?_concat]

/-- The first insert of the row is the first one of its kind. -/
theorem head?_insertsInto (hfirst : (insertsOf ws r).head? = some first) :
    (insertsInto ws r first.change.kind).head? = some first := by
  obtain ⟨after, hafter⟩ := List.head?_eq_some_iff.mp hfirst
  rw [insertsInto, hafter, List.filter_cons_of_pos (by simp), List.head?_cons]

/-- With one kind of operation, the only log row of the row carries the last change. -/
theorem newestWrite_of_one_kind (hfirst : (insertsOf ws r).head? = some first)
    (hlast : (insertsOf ws r).getLast? = some last)
    (hall : ∀ w ∈ insertsOf ws r, w.change.kind = last.change.kind) :
    ∃ w, NewestWrite (TxWrites.empty.insertAll ws) r w ∧ w.change = last.change := by
  have hkind : first.change.kind = last.change.kind := hall first (List.mem_of_mem_head? hfirst)
  obtain ⟨w, hw, hkey, hchange, -⟩ :=
    exists_mem_of_inserts (hkind ▸ head?_insertsInto hfirst) (getLast?_insertsInto hlast)
  refine ⟨w, ⟨hw, congrArg Prod.fst hkey, fun w' hw' hrow => Or.inl ?_⟩, hchange⟩
  obtain ⟨a, ha, -⟩ := exists_insert_of_mem hw' hrow
  have hmem := List.mem_filter.mp (List.mem_of_mem_head? ha)
  have hkind' : w'.change.kind = last.change.kind := by
    rw [← hall a hmem.1]
    exact (by simpa using hmem.2 : a.change.kind = w'.change.kind).symm
  exact TxWrites.eq_of_key hw' hw ((Prod.ext hrow hkind').trans hkey.symm)

/-- With two kinds of operation, the log row of the kind that does not come first is the newest: its first
    insert is later than the first insert of the row. -/
theorem newestWrite_of_two_kinds (hseq : ws.Pairwise (fun w w' => w.writeSeqNum < w'.writeSeqNum))
    (hfirst : (insertsOf ws r).head? = some first) (hlast : (insertsOf ws r).getLast? = some last)
    {y : RowWrite R V} (hy : y ∈ insertsOf ws r) (hne : y.change.kind ≠ first.change.kind) :
    ∃ w, NewestWrite (TxWrites.empty.insertAll ws) r w ∧ w.change.kind = y.change.kind ∧
      (last.change.kind = y.change.kind → w.change = last.change) := by
  have hyk : y ∈ insertsInto ws r y.change.kind := List.mem_filter.mpr ⟨hy, by simp⟩
  obtain ⟨a, ha⟩ : ∃ a, (insertsInto ws r y.change.kind).head? = some a :=
    ⟨_, List.head?_eq_some_head (List.ne_nil_of_mem hyk)⟩
  obtain ⟨b, hb⟩ : ∃ b, (insertsInto ws r y.change.kind).getLast? = some b :=
    ⟨_, List.getLast?_eq_some_getLast (List.ne_nil_of_mem hyk)⟩
  obtain ⟨w, hw, hkey, hchange, hwseq⟩ := exists_mem_of_inserts ha hb
  have hwk : w.change.kind = y.change.kind := congrArg Prod.snd hkey
  -- Both log rows keep the number of their first insert, and the row's first insert is of the other kind.
  have hlt : first.writeSeqNum < a.writeSeqNum := by
    obtain ⟨after, hafter⟩ := List.head?_eq_some_iff.mp hfirst
    have hpair : (first :: after).Pairwise (fun w w' => w.writeSeqNum < w'.writeSeqNum) :=
      hafter ▸ hseq.filter _
    obtain ⟨haIn, hak⟩ := List.mem_filter.mp (List.mem_of_mem_head? ha)
    rw [hafter] at haIn
    rcases List.mem_cons.mp haIn with rfl | haIn
    · exact absurd (by simpa using hak : a.change.kind = y.change.kind).symm hne
    · exact (List.pairwise_cons.mp hpair).1 a haIn
  refine ⟨w, ⟨hw, congrArg Prod.fst hkey, fun w' hw' hrow => ?_⟩, hwk, fun hk => ?_⟩
  · by_cases hk : w'.change.kind = y.change.kind
    · exact Or.inl (TxWrites.eq_of_key hw' hw ((Prod.ext hrow hk).trans hkey.symm))
    · obtain ⟨a', ha', hseq'⟩ := exists_insert_of_mem hw' hrow
      rw [LogKind.eq_of_ne_of_ne hk hne.symm, head?_insertsInto hfirst] at ha'
      cases ha'
      exact Or.inr (by rw [hseq', hwseq]; exact hlt)
  · have hb' := getLast?_insertsInto hlast
    rw [hk, hb] at hb'
    cases hb'
    exact hchange

/-- **The newest log row of a row** has the effect of the last operation exactly when the last operation
    decides. -/
theorem exists_newestWrite (hseq : ws.Pairwise (fun w w' => w.writeSeqNum < w'.writeSeqNum)) {o : Change V}
    (ho : ((insertsOf ws r).map RowWrite.change).getLast? = some o) :
    ∃ w, NewestWrite (TxWrites.empty.insertAll ws) r w ∧
      (w.change.effect = o.effect ↔ LastDecides ((insertsOf ws r).map RowWrite.change)) := by
  rw [List.getLast?_map, Option.map_eq_some_iff] at ho
  obtain ⟨last, hlast, rfl⟩ := ho
  have hlastIn : last ∈ insertsOf ws r := List.mem_of_getLast? hlast
  obtain ⟨first, hfirst⟩ : ∃ first, (insertsOf ws r).head? = some first :=
    ⟨_, List.head?_eq_some_head (List.ne_nil_of_mem hlastIn)⟩
  have hdec : LastDecides ((insertsOf ws r).map RowWrite.change) ↔
      first.change.kind ≠ last.change.kind ∨ ∀ w ∈ insertsOf ws r, w.change.kind = last.change.kind := by
    simp [LastDecides, List.head?_map, List.getLast?_map, hfirst, hlast]
  rw [hdec]
  by_cases hall : ∀ w ∈ insertsOf ws r, w.change.kind = last.change.kind
  · obtain ⟨w, hw, hchange⟩ := newestWrite_of_one_kind hfirst hlast hall
    exact ⟨w, hw, fun _ => Or.inr hall, fun _ => by rw [hchange]⟩
  · -- Two kinds: the one that does not come first wins.
    obtain ⟨y, hy, hne⟩ : ∃ y ∈ insertsOf ws r, y.change.kind ≠ first.change.kind := by
      by_cases hfl : first.change.kind = last.change.kind
      · push Not at hall
        obtain ⟨y, hy, hne⟩ := hall
        exact ⟨y, hy, hfl ▸ hne⟩
      · exact ⟨last, hlastIn, fun h => hfl h.symm⟩
    obtain ⟨w, hw, hkind, hchange⟩ := newestWrite_of_two_kinds hseq hfirst hlast hy hne
    refine ⟨w, hw, fun heff => Or.inl ?_, fun h => ?_⟩
    · have hlk : last.change.kind = y.change.kind := (Change.kind_eq_of_effect_eq heff).symm.trans hkind
      exact fun h => hne (hlk.symm.trans h.symm)
    · have hfl := h.resolve_right hall
      rw [hchange (LogKind.eq_of_ne_of_ne hfl.symm hne)]

end NewestWrite

/-! ### The rows of a sequence of calls -/

theorem map_change_insertsOf_stampOps (nextval : Nat → Int) (n : Nat) (ops : List (R × Change V)) (r : R) :
    (insertsOf (stampOps nextval n ops) r).map RowWrite.change = (ops.filter (fun o => o.1 = r)).map Prod.snd := by
  induction ops generalizing n with
  | nil => rfl
  | cons o ops ih =>
      have hcons : stampOps nextval n (o :: ops) = ⟨o.1, o.2, nextval n⟩ :: stampOps nextval (n + 1) ops := rfl
      rw [hcons, insertsOf]
      by_cases hr : o.1 = r
      · rw [List.filter_cons_of_pos (by simpa using hr), List.filter_cons_of_pos (by simpa using hr),
          List.map_cons, List.map_cons]
        exact congrArg _ (ih (n + 1))
      · rw [List.filter_cons_of_neg (by simpa using hr), List.filter_cons_of_neg (by simpa using hr)]
        exact ih (n + 1)

omit [DecidableEq R] in
/-- The sequence hands out increasing numbers. -/
theorem pairwise_stampOps {nextval : Nat → Int} (hnext : Increasing nextval) (n : Nat)
    (ops : List (R × Change V)) :
    (stampOps nextval n ops).Pairwise (fun w w' => w.writeSeqNum < w'.writeSeqNum) := by
  induction ops generalizing n with
  | nil => exact List.Pairwise.nil
  | cons o ops ih =>
      refine List.pairwise_cons.mpr ⟨fun w hw => ?_, ih (n + 1)⟩
      obtain ⟨p, hp, rfl⟩ := List.mem_map.mp hw
      exact hnext n p.2 (List.le_snd_of_mem_zipIdx hp)

/-! ## Reads -/

/-- The user columns a read returns for row `r`. -/
def resolvedRow (visible : List (LogEntry R V)) (r : R) : List V :=
  ((filterLiveRows (mergeResolved visible)).filter (fun p => p.1 = r)).map Prod.snd

/-- What an `OpenTx` read of a transaction that began at `beganAtSeqNum` resolves: what was committed before,
    and the transaction's own rows under a commit row with `i64::MAX` in both columns. -/
def openTxEntries (H : History R V) (beganAtSeqNum : Int) (rows : TxWrites R V) : List (LogEntry R V) :=
  H.entries.filter (fun e => e.commitSeqNum < beganAtSeqNum) ++
    (⟨i64Max, i64Max, rows⟩ : CommittedTx R V).entries

theorem resolvedRow_eq {visible : List (LogEntry R V)}
    (hsep : Newest.Separated LogEntry.version LogEntry.rowUuid {e | e ∈ visible}) {e : LogEntry R V}
    (he : NewestOf visible e) : resolvedRow visible e.rowUuid = e.effect.toList := by
  have hone : (mergeResolved visible).filter (fun b => b.rowUuid = e.rowUuid) = [e] := by
    refine List.perm_singleton.mp ((List.perm_ext_iff_of_nodup ((nodup_mergeResolved visible).filter _)
      (List.nodup_singleton e)).mpr (fun b => ?_))
    rw [List.mem_filter, mem_mergeResolved hsep, decide_eq_true_eq, List.mem_singleton]
    constructor
    · exact fun h => h.1.eq hsep he h.2
    · rintro rfl
      exact ⟨he, rfl⟩
  have hfilter : (filterLiveRows (mergeResolved visible)).filter (fun p => p.1 = e.rowUuid) =
      filterLiveRows ((mergeResolved visible).filter (fun b => b.rowUuid = e.rowUuid)) := by
    rw [filterLiveRows, filterLiveRows, List.filter_filterMap, List.filterMap_filter]
    refine List.filterMap_congr (fun b _ => ?_)
    cases b.effect <;> by_cases hb : b.rowUuid = e.rowUuid <;> simp [hb]
  rw [resolvedRow, hfilter, hone]
  cases heff : e.effect <;> simp [filterLiveRows, heff]

omit [DecidableEq R] in
/-- Among entries with a transaction and nothing newer of row `r`, the transaction's newest log row of `r` is the newest
    entry of `r`. -/
theorem NewestWrite.newestOf {visible : List (LogEntry R V)} {t : CommittedTx R V} {r : R} {w : RowWrite R V}
    (hw : NewestWrite t.rows r w) (hown : ∀ e ∈ t.entries, e ∈ visible)
    (hother : ∀ e ∈ visible, e.rowUuid = r → e ∈ t.entries ∨ e.commitSeqNum < t.commitSeqNum) :
    NewestOf visible (t.stamp w) := by
  refine ⟨⟨hown _ (CommittedTx.mem_entries.mpr ⟨w, hw.mem, rfl⟩), rfl⟩, ?_⟩
  rintro b ⟨hb, hrow⟩
  rcases hother b hb (hrow.trans hw.row) with hb | hlt
  · obtain ⟨w', hw', rfl⟩ := CommittedTx.mem_entries.mp hb
    rcases hw.newest w' hw' (hrow.trans hw.row) with rfl | hlt
    · exact le_rfl
    · exact Prod.Lex.toLex_le_toLex.mpr (Or.inr ⟨rfl, Prod.Lex.toLex_le_toLex.mpr (Or.inl hlt)⟩)
  · exact (LogEntry.version_lt_of_commitSeqNum_lt hlt).le

/-- A read that sees a transaction and nothing newer of row `r` returns what the transaction's newest log row
    of `r` says. -/
theorem resolvedRow_of_newestWrite {visible : List (LogEntry R V)}
    (hsep : Newest.Separated LogEntry.version LogEntry.rowUuid {e | e ∈ visible}) {t : CommittedTx R V} {r : R}
    {w : RowWrite R V} (hw : NewestWrite t.rows r w) (hown : ∀ e ∈ t.entries, e ∈ visible)
    (hother : ∀ e ∈ visible, e.rowUuid = r → e ∈ t.entries ∨ e.commitSeqNum < t.commitSeqNum) :
    resolvedRow visible r = w.change.effect.toList := by
  rw [← hw.row]
  exact resolvedRow_eq hsep (hw.newestOf hown hother)

omit [DecidableEq R] in
/-- The own rows of an open transaction are newer than everything committed. -/
theorem separated_openTxEntries (H : History R V) {beganAtSeqNum : Int} (hbegan : beganAtSeqNum ≤ i64Max)
    (rows : TxWrites R V) :
    Newest.Separated LogEntry.version LogEntry.rowUuid {e | e ∈ openTxEntries H beganAtSeqNum rows} := by
  have hside : ∀ e ∈ openTxEntries H beganAtSeqNum rows,
      (e ∈ H.entries ∧ e.commitSeqNum < i64Max) ∨
        (e ∈ (⟨i64Max, i64Max, rows⟩ : CommittedTx R V).entries ∧ e.commitSeqNum = i64Max) := by
    intro e he
    rcases List.mem_append.mp he with he | he
    · obtain ⟨he, hlt⟩ := List.mem_filter.mp he
      exact Or.inl ⟨he, lt_of_lt_of_le (by simpa using hlt) hbegan⟩
    · exact Or.inr ⟨he, CommittedTx.commitSeqNum_of_mem he⟩
  intro e he e' he' hrow hver
  have hseq : e.commitSeqNum = e'.commitSeqNum := congrArg (fun v => (ofLex v).1) hver
  rcases hside e he with ⟨he, hlt⟩ | ⟨he, heq⟩ <;> rcases hside e' he' with ⟨he', hlt'⟩ | ⟨he', heq'⟩
  · exact H.separated e he e' he' hrow hver
  · omega
  · omega
  · exact CommittedTx.eq_of_rowUuid_of_kind he he' hrow (LogEntry.kind_eq_of_version_eq hver)

/-- **The last operation on a row.** After any `WriteData` calls of a transaction, a read that sees its rows
    (an `OpenTx` read, or a read of the history it committed to that sees nothing newer of the row) returns
    the row as its last operation left it if and only if the last operation decides. -/
theorem resolves_last_iff {nextval : Nat → Int} (hnext : Increasing nextval) (n : Nat)
    (calls : List (DataChange R V)) {r : R} {o : Change V} (hlast : (changesOf calls r).getLast? = some o) :
    (∀ (H : History R V) (beganAtSeqNum : Int), beganAtSeqNum ≤ i64Max →
      (resolvedRow (openTxEntries H beganAtSeqNum (TxWrites.writeData nextval n .empty calls)) r =
        o.effect.toList ↔ LastDecides (changesOf calls r))) ∧
    (∀ (H : History R V), ∀ t ∈ H.txs, t.rows = TxWrites.writeData nextval n .empty calls →
      ∀ sees : LogEntry R V → Bool, (∀ e ∈ t.entries, sees e = true) →
        (∀ e ∈ H.entries, sees e = true → e.rowUuid = r → e.commitSeqNum ≤ t.commitSeqNum) →
          (resolvedRow (H.entries.filter sees) r = o.effect.toList ↔ LastDecides (changesOf calls r))) := by
  have hchanges : (insertsOf (stampOps nextval n (opsOf calls)) r).map RowWrite.change = changesOf calls r :=
    map_change_insertsOf_stampOps nextval n (opsOf calls) r
  obtain ⟨w, hw, hiff⟩ := exists_newestWrite (pairwise_stampOps hnext n (opsOf calls)) (hchanges ▸ hlast)
  rw [← TxWrites.writeData_eq] at hw
  have htoList : w.change.effect.toList = o.effect.toList ↔ LastDecides (changesOf calls r) := by
    rw [← hchanges, ← hiff]
    cases w.change.effect <;> cases o.effect <;> simp
  constructor
  · -- The own rows carry `i64::MAX`, above everything committed.
    intro H beganAtSeqNum hbegan
    rw [resolvedRow_of_newestWrite (t := ⟨i64Max, i64Max, _⟩) (separated_openTxEntries H hbegan _) hw
      (fun e he => List.mem_append_right _ he), htoList]
    intro e he _
    rcases List.mem_append.mp he with he | he
    · exact Or.inr (lt_of_lt_of_le (by simpa using (List.mem_filter.mp he).2) hbegan)
    · exact Or.inl he
  · intro H t ht hrows sees hsees hnone
    have hsep := H.separated.mono (fun e (he : e ∈ H.entries.filter sees) => (List.mem_filter.mp he).1)
    rw [resolvedRow_of_newestWrite hsep (hrows ▸ hw)
      (fun e he => List.mem_filter.mpr ⟨History.mem_entries.mpr ⟨t, ht, he⟩, hsees e he⟩), htoList]
    -- Everything else the read sees of the row is from an earlier transaction.
    intro e he hrow
    obtain ⟨heH, hsee⟩ := List.mem_filter.mp he
    obtain ⟨t', ht', het'⟩ := History.mem_entries.mp heH
    have hle := hnone e heH hsee hrow
    rw [CommittedTx.commitSeqNum_of_mem het'] at hle ⊢
    rcases History.before_trichotomy ht' ht with rfl | ⟨hlt, -⟩ | ⟨hlt, -⟩
    · exact Or.inl het'
    · exact Or.inr hlt
    · omega

/-- Upsert a row, delete it, upsert it again, in three calls. -/
def upsertAgainCalls : List (DataChange Nat Nat) :=
  [.upsertRow 0 1, .deleteRow 0, .upsertRow 0 2]

/-- Delete a row, upsert it, delete it again, in three calls. -/
def deleteAgainCalls : List (DataChange Nat Nat) :=
  [.deleteRow 0, .upsertRow 0 1, .deleteRow 0]

/-- The row upserted last is read as absent and the row deleted last as present, by the open transaction and
    after its commit. -/
theorem rewrittenRow_not_last :
    (changesOf upsertAgainCalls 0).getLast? = some (.upsert 2) ∧
    (changesOf deleteAgainCalls 0).getLast? = some .delete ∧
    resolvedRow (openTxEntries .empty 0 (TxWrites.writeData Nat.cast 0 .empty upsertAgainCalls)) 0 = [] ∧
    resolvedRow (openTxEntries .empty 0 (TxWrites.writeData Nat.cast 0 .empty deleteAgainCalls)) 0 = [1] ∧
    resolvedRow (History.empty.commit 1 (TxWrites.writeData Nat.cast 0 .empty upsertAgainCalls)).entries 0 = [] ∧
    resolvedRow (History.empty.commit 1 (TxWrites.writeData Nat.cast 0 .empty deleteAgainCalls)).entries 0 = [1] := by
  decide +kernel

/-- Delete and upsert a row in one call, then upsert it again. -/
def replaceCalls : List (DataChange Nat Nat) :=
  [⟨[[0]], [[(0, 1)]], by simp, by simp⟩, .upsertRow 0 2]

/-- The last upsert of a replaced row is read, by the open transaction and after its commit. -/
theorem replacedRow_resolves_last :
    resolvedRow (openTxEntries .empty 0 (TxWrites.writeData Nat.cast 0 .empty replaceCalls)) 0 = [2] ∧
    resolvedRow ((History.empty.append 1 (TxWrites.writeData Nat.cast 0 .empty replaceCalls)
      (by decide)).entries.filter (fun _ => true)) 0 = [2] := by
  have hlast := resolves_last_iff (r := 0) (o := .upsert 2) increasing_natCast 0 replaceCalls
    (by decide)
  have hdecides : LastDecides (changesOf replaceCalls 0) := by decide
  refine ⟨(hlast.1 .empty 0 (by decide)).mpr hdecides, (hlast.2 _ _ List.mem_concat_self rfl _
    (fun _ _ => rfl) ?_).mpr hdecides⟩
  decide +kernel

end Penca
