import Mathlib.Data.List.Infix
import Mathlib.Logic.Function.Basic
import Penca.Lib.Runs
import Penca.Scheduler.Pages

/-!
# `Scheduler.Loops` — the persist loop and the snapshot loop

Each tick walks the catalogs and their branches. The persist loop makes one call for a branch. The snapshot loop keeps two
watermarks for each branch: it lists the tables modified, and those persisted, between the watermark and the clock, and purges
them. The watermarks live in memory and are stored only when the whole visit of the branch went through.

- **Windows** (`windows_tile`). Below its watermarks a branch has no instant that no sweep covered, whichever calls failed,
  whatever the clock did and however often the process restarted.
- **Reach** (`persistBranch_called_iff`). A catalog whose branches cannot be listed ends a tick: the persist loop gets to
  the branches of the catalogs listed before it and to no others.
-/

namespace Penca.Scheduler

variable {C B T A : Type}

/-- The calls of the two loops on a branch, a listing with what `paginate_all` made of it. -/
inductive Call (C B T : Type) where
  | persistBranch (branch : C × B)
  | snapshotBranch (branch : C × B)
  | listModifiedTables (branch : C × B) (min max : Int) (tables : Drained T)
  | listPersistedTables (branch : C × B) (min max : Int) (tables : Drained T)
  | purge (branch : C × B) (table : T)
  | purgeTxLog (branch : C × B)
  deriving DecidableEq

/-- `BranchWatermarks`, zero by default. -/
structure BranchWatermarks where
  lastModifiedTick : Int := 0
  lastPurgeTick    : Int := 0
  deriving DecidableEq

/-- The watermarks of a loop and the calls it made. -/
structure LoopState (C B T : Type) where
  watermarks : C × B → Option BranchWatermarks
  calls      : List (Call C B T)

def LoopState.new : LoopState C B T := ⟨fun _ => none, []⟩

/-- What a visit of a branch meets: the clock and the two listings by window. Whether SnapshotBranch, a Purge or PurgeTxLog
    fails is only logged. -/
structure BranchAnswers (T : Type) where
  now       : Int
  modified  : Int → Int → Drained T
  persisted : Int → Int → Drained T

def purgeEach (branch : C × B) (tables : List T) : List (Call C B T) := tables.map (.purge branch)

/-- One purge pass: the listing, and the purges if it was drained. -/
def sweep (list : Drained T → Call C B T) (branch : C × B) (listed : Drained T) : List (Call C B T) × Bool :=
  match listed with
  | .done tables      => (list listed :: purgeEach branch tables, true)
  | .failed | .running => ([list listed], false)

def purgeModified (branch : C × B) (wm : BranchWatermarks) (answers : BranchAnswers T) :
    List (Call C B T) × Option BranchWatermarks :=
  let listed := answers.modified wm.lastModifiedTick answers.now
  let (calls, ok) := sweep (.listModifiedTables branch wm.lastModifiedTick answers.now) branch listed
  (calls, if ok then some { wm with lastModifiedTick := answers.now } else none)

def purgeAgedPersisted (graceWindowMicros : Int) (branch : C × B) (wm : BranchWatermarks) (answers : BranchAnswers T) :
    List (Call C B T) × Option BranchWatermarks :=
  let purgeUpper := answers.now - graceWindowMicros
  if wm.lastPurgeTick < purgeUpper then
    let listed := answers.persisted wm.lastPurgeTick purgeUpper
    let (calls, ok) := sweep (.listPersistedTables branch wm.lastPurgeTick purgeUpper) branch listed
    (calls, if ok then some { wm with lastPurgeTick := purgeUpper } else none)
  else ([], some wm)

/-- `tick_branch`. An error of either listing leaves before the watermarks are stored. -/
def tickBranch [DecidableEq C] [DecidableEq B] (graceWindowMicros : Int) (s : LoopState C B T) (branch : C × B)
    (answers : BranchAnswers T) : LoopState C B T :=
  let modified := purgeModified branch ((s.watermarks branch).getD {}) answers
  let calls := s.calls ++ .snapshotBranch branch :: modified.1
  match modified.2 with
  | none    => { s with calls }
  | some wm =>
      let aged := purgeAgedPersisted graceWindowMicros branch wm answers
      match aged.2 with
      | none    => { s with calls := calls ++ aged.1 }
      | some wm => ⟨Function.update s.watermarks branch (some wm), calls ++ (aged.1 ++ [.purgeTxLog branch])⟩

/-- `PersistLoop::persist_branch`. -/
def persistBranch (s : LoopState C B T) (branch : C × B) (_ : Unit) : LoopState C B T :=
  { s with calls := s.calls ++ [.persistBranch branch] }

/-- The visits of a tick: the catalogs with the branches listed in each and what their visits meet. An error of
    `ListBranches` ends the tick. -/
def visits : List (C × Option (List (B × A))) → List ((C × B) × A)
  | []                         => []
  | (_, none) :: _             => []
  | (c, some branches) :: rest => branches.map (fun b => ((c, b.1), b.2)) ++ visits rest

/-- A tick, with its drained `ListCatalogs` or none if that failed, or a restart of the process. -/
inductive LoopEvent (C B A : Type) where
  | tick (catalogs : Option (List (C × Option (List (B × A)))))
  | restart

def LoopEvent.visits : LoopEvent C B A → List ((C × B) × A)
  | .tick catalogs => catalogs.elim [] Scheduler.visits
  | .restart       => []

/-- An event of a loop, given what it does at a branch. -/
def loopStep (visit : LoopState C B T → C × B → A → LoopState C B T) (s : LoopState C B T) (ev : LoopEvent C B A) :
    Option (LoopState C B T) :=
  match ev with
  | .tick _  => some (ev.visits.foldl (fun s v => visit s v.1 v.2) s)
  | .restart => some { s with watermarks := fun _ => none }

/-! ## Reach -/

theorem calls_foldl_persistBranch (vs : List ((C × B) × Unit)) (s : LoopState C B T) :
    (vs.foldl (fun s v => persistBranch s v.1 v.2) s).calls = s.calls ++ vs.map (fun v => .persistBranch v.1) := by
  induction vs generalizing s with
  | nil => exact (List.append_nil _).symm
  | cons v vs ih =>
      rw [List.foldl_cons, ih, persistBranch, List.append_assoc]
      rfl

theorem calls_persistLoop {evs : List (LoopEvent C B Unit)} {s : LoopState C B T}
    (hrun : Runs.run (loopStep persistBranch) LoopState.new evs = some s) :
    s.calls = (evs.flatMap LoopEvent.visits).map (fun v => .persistBranch v.1) := by
  suffices hfrom : ∀ s₀ : LoopState C B T, Runs.run (loopStep persistBranch) s₀ evs = some s →
      s.calls = s₀.calls ++ (evs.flatMap LoopEvent.visits).map (fun v => .persistBranch v.1) from hfrom _ hrun
  clear hrun
  induction evs with
  | nil =>
      intro s₀ hrun
      cases hrun
      exact (List.append_nil _).symm
  | cons ev evs ih =>
      intro s₀ hrun
      obtain ⟨m, hm, hrest⟩ := Runs.run_cons_eq_some.mp hrun
      rw [ih m hrest, List.flatMap_cons, List.map_append, ← List.append_assoc]
      congr 1
      cases ev with
      | tick catalogs =>
          cases hm
          exact calls_foldl_persistBranch _ _
      | restart =>
          cases hm
          exact (List.append_nil _).symm

theorem mem_visits {catalogs : List (C × Option (List (B × A)))} {branch : C × B} {a : A} :
    (branch, a) ∈ visits catalogs ↔ ∃ pre branches post, catalogs = pre ++ (branch.1, some branches) :: post ∧
      (∀ entry ∈ pre, entry.2.isSome) ∧ (branch.2, a) ∈ branches := by
  induction catalogs with
  | nil => simp [visits]
  | cons entry rest ih =>
      obtain ⟨c, _ | listed⟩ := entry
      · refine iff_of_false List.not_mem_nil ?_
        rintro ⟨_ | ⟨e, pre⟩, branches, post, heq, hpre, -⟩
        · cases heq
        · cases heq
          cases hpre _ List.mem_cons_self
      · rw [visits, List.mem_append, ih]
        constructor
        · rintro (hmem | ⟨pre, branches, post, rfl, hpre, hmem⟩)
          · obtain ⟨b, hb, heq⟩ := List.mem_map.mp hmem
            cases heq
            exact ⟨[], listed, rest, rfl, by simp, hb⟩
          · exact ⟨(c, some listed) :: pre, branches, post, rfl, by simpa using hpre, hmem⟩
        · rintro ⟨_ | ⟨e, pre⟩, branches, post, heq, hpre, hmem⟩
          · cases heq
            exact .inl (List.mem_map.mpr ⟨_, hmem, rfl⟩)
          · cases heq
            exact .inr ⟨pre, branches, post, rfl, fun e he => hpre e (List.mem_cons_of_mem _ he), hmem⟩

/-- **Reach.** The persist loop calls `PersistBranch` on a branch exactly if some tick listed it in a catalog with none
    before it whose branches could not be listed. -/
theorem persistBranch_called_iff {evs : List (LoopEvent C B Unit)} {s : LoopState C B T}
    (hrun : Runs.run (loopStep persistBranch) LoopState.new evs = some s) (branch : C × B) :
    .persistBranch branch ∈ s.calls ↔ ∃ pre branches post,
      .tick (some (pre ++ (branch.1, some branches) :: post)) ∈ evs ∧ (∀ entry ∈ pre, entry.2.isSome) ∧
        (branch.2, ()) ∈ branches := by
  rw [calls_persistLoop hrun, List.mem_map]
  constructor
  · rintro ⟨v, hv, heq⟩
    cases heq
    obtain ⟨(_ | catalogs) | _, hev, hv⟩ := List.mem_flatMap.mp hv
    · cases hv
    · obtain ⟨pre, branches, post, rfl, hpre, hmem⟩ := mem_visits.mp hv
      exact ⟨pre, branches, post, hev, hpre, hmem⟩
    · cases hv
  · rintro ⟨pre, branches, post, hev, hpre, hmem⟩
    exact ⟨(branch, ()), List.mem_flatMap.mpr ⟨_, hev, mem_visits.mpr ⟨pre, branches, post, rfl, hpre, hmem⟩⟩, rfl⟩

/-- Catalog 0 cannot be listed in the second tick. -/
def failingCatalog : List (LoopEvent Nat Nat Unit) :=
  [.tick (some [(0, some [(1, ())])]), .tick (some [(0, none), (2, some [(3, ())])])]

theorem persistBranch_failingCatalog : ∃ s : LoopState Nat Nat Nat,
    Runs.run (loopStep persistBranch) LoopState.new failingCatalog = some s ∧ .persistBranch (0, 1) ∈ s.calls := by
  obtain ⟨s, hrun⟩ : ∃ s : LoopState Nat Nat Nat,
    Runs.run (loopStep persistBranch) LoopState.new failingCatalog = some s := ⟨_, rfl⟩
  exact ⟨s, hrun, (persistBranch_called_iff hrun (0, 1)).mpr ⟨[], _, [], .head _, by simp, .head _⟩⟩

/-! ## Windows -/

/-- A drained listing of a window with the instant, and the purge of every table in it. -/
def Swept (list : Int → Int → Drained T → Call C B T) (branch : C × B) (calls : List (Call C B T)) (t : Int) : Prop :=
  ∃ min max tables, min ≤ t ∧ t < max ∧ (list min max (.done tables) :: purgeEach branch tables).IsInfix calls

theorem Swept.append {list : Int → Int → Drained T → Call C B T} {branch : C × B} {calls : List (Call C B T)} {t : Int}
    (h : Swept list branch calls t) (later : List (Call C B T)) : Swept list branch (calls ++ later) t := by
  obtain ⟨min, max, tables, hmin, hmax, hcalls⟩ := h
  exact ⟨min, max, tables, hmin, hmax, hcalls.trans (List.prefix_append _ _).isInfix⟩

/-- Every instant below the watermarks of a branch was swept. -/
structure Tiled (calls : List (Call C B T)) (branch : C × B) (wm : BranchWatermarks) : Prop where
  modified  : ∀ t, 0 ≤ t → t < wm.lastModifiedTick → Swept (.listModifiedTables branch) branch calls t
  persisted : ∀ t, 0 ≤ t → t < wm.lastPurgeTick → Swept (.listPersistedTables branch) branch calls t

theorem Tiled.append {calls : List (Call C B T)} {branch : C × B} {wm : BranchWatermarks} (h : Tiled calls branch wm)
    (later : List (Call C B T)) : Tiled (calls ++ later) branch wm :=
  ⟨fun t h0 ht => (h.modified t h0 ht).append later, fun t h0 ht => (h.persisted t h0 ht).append later⟩

/-- A pass from a tiled watermark tiles up to the new one: below the old one nothing changes, and from there on its own
    window is the cover. -/
theorem swept_of_sweep {list : Int → Int → Drained T → Call C B T} {branch : C × B} {before : List (Call C B T)} {last next : Int}
    {listed : Drained T} (hold : ∀ t, 0 ≤ t → t < last → Swept list branch before t)
    (hok : (sweep (list last next) branch listed).2 = true) :
    ∀ t, 0 ≤ t → t < next → Swept list branch (before ++ (sweep (list last next) branch listed).1) t := by
  intro t h0 ht
  cases listed with
  | running => cases hok
  | failed => cases hok
  | done tables =>
      by_cases hlast : t < last
      · exact (hold t h0 hlast).append _
      · exact ⟨last, next, tables, Int.not_lt.mp hlast, ht, (List.suffix_append _ _).isInfix⟩

theorem Tiled.purgeModified {calls : List (Call C B T)} {branch : C × B} {wm wm' : BranchWatermarks}
    (h : Tiled calls branch wm) {answers : BranchAnswers T} (hwm : (purgeModified branch wm answers).2 = some wm') :
    Tiled (calls ++ (Scheduler.purgeModified branch wm answers).1) branch wm' := by
  obtain ⟨hok, hwm⟩ := Option.ite_none_right_eq_some.mp hwm
  cases hwm
  exact ⟨swept_of_sweep h.modified hok, (h.append _).persisted⟩

theorem Tiled.purgeAgedPersisted {calls : List (Call C B T)} {branch : C × B} {wm wm' : BranchWatermarks}
    (h : Tiled calls branch wm) {grace : Int} {answers : BranchAnswers T}
    (hwm : (purgeAgedPersisted grace branch wm answers).2 = some wm') :
    Tiled (calls ++ (Scheduler.purgeAgedPersisted grace branch wm answers).1) branch wm' := by
  by_cases hlt : wm.lastPurgeTick < answers.now - grace
  · simp only [Scheduler.purgeAgedPersisted, if_pos hlt] at hwm ⊢
    obtain ⟨hok, hwm⟩ := Option.ite_none_right_eq_some.mp hwm
    cases hwm
    exact ⟨(h.append _).modified, swept_of_sweep h.persisted hok⟩
  · simp only [Scheduler.purgeAgedPersisted, if_neg hlt] at hwm ⊢
    cases hwm
    exact h.append []

/-- All branches are tiled up to the watermarks stored for them. -/
def AllTiled (s : LoopState C B T) : Prop := ∀ branch wm, s.watermarks branch = some wm → Tiled s.calls branch wm

section Windows

variable [DecidableEq C] [DecidableEq B]

/-- **Step.** A visit keeps every branch tiled. -/
theorem AllTiled.tickBranch {grace : Int} {s : LoopState C B T} (h : AllTiled s) (branch : C × B) (answers : BranchAnswers T) :
    AllTiled (tickBranch grace s branch answers) := by
  have hold : Tiled s.calls branch ((s.watermarks branch).getD {}) := by
    cases hwm : s.watermarks branch with
    | none => exact ⟨fun t h0 ht => absurd ht (Int.not_lt.mpr h0), fun t h0 ht => absurd ht (Int.not_lt.mpr h0)⟩
    | some wm => exact h branch wm hwm
  -- the SnapshotBranch call comes first and sweeps nothing
  have hsnap := hold.append [.snapshotBranch branch]
  intro b wm hwm
  unfold Scheduler.tickBranch at hwm ⊢
  dsimp only at hwm ⊢
  split at hwm
  · exact (h b wm hwm).append _
  · rename_i wm₁ hmodified
    split at hwm
    · simp only [List.append_assoc]
      exact (h b wm hwm).append _
    · rename_i wm₂ haged
      by_cases hb : b = branch
      · subst hb
        simp only [Function.update_self, Option.some.injEq] at hwm
        subst hwm
        have hend := ((hsnap.purgeModified hmodified).purgeAgedPersisted haged).append [.purgeTxLog b]
        simpa [List.append_assoc] using hend
      · simp only [Function.update_of_ne hb, List.append_assoc] at hwm ⊢
        exact (h b wm hwm).append _

/-- **The windows leave no gap.** -/
theorem windows_tile {grace : Int} {evs : List (LoopEvent C B (BranchAnswers T))} {s : LoopState C B T}
    (hrun : Runs.run (loopStep (tickBranch grace)) LoopState.new evs = some s) {branch : C × B} {wm : BranchWatermarks}
    (hwm : s.watermarks branch = some wm) : Tiled s.calls branch wm := by
  have hall : AllTiled s := by
    refine Runs.invariant_of_step (G := fun _ _ => True) (fun s ev s' h _ hstep => ?_) (fun _ _ hnone => by cases hnone)
      (Runs.meets_of_forall (fun _ _ => trivial) _ _) hrun
    cases ev with
    | tick catalogs =>
        cases hstep
        exact List.foldlRecOn _ _ h (fun s h v _ => h.tickBranch v.1 v.2)
    | restart =>
        cases hstep
        exact fun _ _ hnone => by cases hnone
  exact hall branch wm hwm

end Windows

/-- A tick at 10 finds table 5 modified; the listing of the tick at 20 fails, and the tick at 30 sweeps from 10 on. -/
def failedSweep : List (LoopEvent Nat Nat (BranchAnswers Nat)) :=
  [.tick (some [(0, some [(1, ⟨10, fun _ _ => .done [5], fun _ _ => .done []⟩)])]),
    .tick (some [(0, some [(1, ⟨20, fun _ _ => .failed, fun _ _ => .done []⟩)])]),
    .tick (some [(0, some [(1, ⟨30, fun _ _ => .done [], fun _ _ => .done [5]⟩)])])]

theorem windows_tile_failedSweep : ∃ s, Runs.run (loopStep (tickBranch 3)) LoopState.new failedSweep = some s ∧
    s.watermarks (0, 1) = some ⟨30, 27⟩ ∧ Tiled s.calls (0, 1) ⟨30, 27⟩ := by
  obtain ⟨s, hrun, hwm⟩ : ∃ s, Runs.run (loopStep (tickBranch 3)) LoopState.new failedSweep = some s ∧
    s.watermarks (0, 1) = some ⟨30, 27⟩ := ⟨_, rfl, rfl⟩
  exact ⟨s, hrun, hwm, windows_tile hrun hwm⟩

end Penca.Scheduler
