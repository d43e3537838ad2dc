import AetherOptExt.ProcMode

/-! # Which processes proc mode discovers

`proc_cache_sync` looks at untracked processes only in a rebuild with `scan_all_proc`, and it
rebuilds only when one is due.  `sync_twice_tracks_iff` says when two calls on an unchanged
system end with the expected processes tracked.  When a rebuild is due the first call sets
`scan_all_proc` for the second if the listing has grown; otherwise an untracked process is not
found.  When none is due nothing is found at all, in particular when the process count has
grown by at most 11. -/

namespace AetherOptExt

variable {cfg : AppConfig} {state : ProcState} {snap : ProcSnapshot}

/-- A rebuild is due. -/
def RebuildDue (state : ProcState) (snap : ProcSnapshot) : Prop :=
  state.scanAllProc = true ∨ snap.procs = none ∨ (∃ cur, snap.procs = some cur ∧ state.lastProcCount + 11 < cur) ∨
    ∃ pid ∈ state.trackedPids, snap.alive pid = false

theorem syncCount_fst (state : ProcState) (procs : Option ℕ) :
    (syncCount state procs).1 = true ↔ state.scanAllProc = true ∨ procs = none ∨
      ∃ cur, procs = some cur ∧ state.lastProcCount + 11 < cur := by
  unfold syncCount
  cases procs with
  | none => simp
  | some cur =>
      simp only [reduceCtorEq, Option.some.injEq, exists_eq_left', false_or]
      split_ifs with h₁ h₂
      · simp [h₁]
      · simp [h₁]
      · simp [h₁]

/-- What the count leaves of the state. -/
theorem syncCount_state (state : ProcState) (procs : Option ℕ) :
    (syncCount state procs).2.scanAllProc = state.scanAllProc ∧
      (syncCount state procs).2.trackedPids = state.trackedPids ∧
      (syncCount state procs).2.lastProcTotal = state.lastProcTotal ∧
      (syncCount state procs).2.lastProcCount = procs.getD state.lastProcCount := by
  unfold syncCount
  cases procs with
  | none => exact ⟨rfl, rfl, rfl, rfl⟩
  | some cur =>
      dsimp only
      split_ifs
      · exact ⟨rfl, rfl, rfl, rfl⟩
      · exact ⟨rfl, rfl, rfl, rfl⟩
      · exact ⟨rfl, rfl, rfl, rfl⟩

theorem rebuildDue_iff :
    (!(syncCount state snap.procs).1 && (syncCount state snap.procs).2.trackedPids.order.all snap.alive) = true ↔
      ¬ RebuildDue state snap := by
  have htracked := (syncCount_state state snap.procs).2.1
  have hall : state.trackedPids.order.all snap.alive = true ↔ ¬ ∃ pid ∈ state.trackedPids, snap.alive pid = false := by
    rw [List.all_eq_true]
    push Not
    simp only [Bool.ne_false_iff]
    rfl
  unfold RebuildDue
  rw [Bool.and_eq_true, Bool.not_eq_true', Bool.eq_false_iff, ne_eq, syncCount_fst, htracked, hall, ← not_or]
  simp only [or_assoc]

/-- Without a rebuild the tracked processes and `scan_all_proc` stay as they are. -/
theorem sync_idle (h : ¬ RebuildDue state snap) :
    (procCacheSync state cfg snap).2.trackedPids = state.trackedPids ∧
      (procCacheSync state cfg snap).2.scanAllProc = state.scanAllProc ∧
      (procCacheSync state cfg snap).2.lastProcCount = snap.procs.getD state.lastProcCount := by
  obtain ⟨hscan, htracked, -, hcount⟩ := syncCount_state state snap.procs
  have hidle : procCacheSync state cfg snap = (false, (syncCount state snap.procs).2) := by
    unfold procCacheSync
    dsimp only
    rw [if_pos (rebuildDue_iff.mpr h)]
  rw [hidle]
  exact ⟨htracked, hscan, hcount⟩

/-- A rebuild tracks the expected processes it looks at, and asks for a full scan when the
listing has grown. -/
theorem sync_rebuilds (h : RebuildDue state snap) :
    (∀ q, q ∈ (procCacheSync state cfg snap).2.trackedPids ↔
      (state.scanAllProc = true ∨ q ∈ state.trackedPids) ∧ Expected cfg snap.dir q) ∧
    ((procCacheSync state cfg snap).2.scanAllProc = true ↔ state.lastProcTotal < procTotal snap.dir) := by
  obtain ⟨hscan, htracked, htotal, -⟩ := syncCount_state state snap.procs
  have hb : ¬ (!(syncCount state snap.procs).1 &&
      (syncCount state snap.procs).2.trackedPids.order.all snap.alive) = true := by
    rw [rebuildDue_iff]
    exact not_not_intro h
  unfold procCacheSync
  dsimp only
  rw [if_neg hb]
  constructor
  · intro q
    rw [mem_newTracked_iff, hscan, htracked]
  · rw [decide_eq_true_iff, rebuild_currentTotal, htotal]

/-- The state and the snapshot let two calls discover the configured processes: a due rebuild
looks at all of them, at the first or at the second call, or they were tracked before; and
where no rebuild is due, the tracked ones are right already. -/
structure Discovers (cfg : AppConfig) (state : ProcState) (snap : ProcSnapshot) : Prop where
  due : RebuildDue state snap → state.scanAllProc = true ∨ state.lastProcTotal < procTotal snap.dir ∨
    ∀ q, Expected cfg snap.dir q → q ∈ state.trackedPids
  idle : ¬ RebuildDue state snap → ∀ q, q ∈ state.trackedPids ↔ Expected cfg snap.dir q

/-- What the second call makes of the expected processes found by the first. -/
theorem sync_again {s : ProcState} (h : ∀ q ∈ s.trackedPids, Expected cfg snap.dir q) (q : Tid) :
    q ∈ (procCacheSync s cfg snap).2.trackedPids ↔
      (s.scanAllProc = true ∧ Expected cfg snap.dir q) ∨ q ∈ s.trackedPids := by
  by_cases hdue : RebuildDue s snap
  · rw [(sync_rebuilds hdue).1]
    constructor
    · rintro ⟨hs | hq, he⟩
      · exact .inl ⟨hs, he⟩
      · exact .inr hq
    · rintro (⟨hs, he⟩ | hq)
      · exact ⟨.inl hs, he⟩
      · exact ⟨.inr hq, h q hq⟩
  · rw [(sync_idle hdue).1]
    constructor
    · exact .inr
    · rintro (⟨hs, -⟩ | hq)
      · exact absurd (.inl hs) hdue
      · exact hq

/-- **When two calls of `proc_cache_sync` on an unchanged system discover every configured
process.** -/
theorem sync_twice_tracks_iff (cfg : AppConfig) (state : ProcState) (snap : ProcSnapshot) :
    (∀ q, q ∈ (procCacheSync (procCacheSync state cfg snap).2 cfg snap).2.trackedPids ↔
      Expected cfg snap.dir q) ↔ Discovers cfg state snap := by
  by_cases hdue : RebuildDue state snap
  · obtain ⟨htracked, hscan⟩ := @sync_rebuilds cfg state snap hdue
    have hsub : ∀ q ∈ (procCacheSync state cfg snap).2.trackedPids, Expected cfg snap.dir q :=
      fun q hq => ((htracked q).mp hq).2
    have hsecond : ∀ q, q ∈ (procCacheSync (procCacheSync state cfg snap).2 cfg snap).2.trackedPids ↔
        Expected cfg snap.dir q ∧ (state.lastProcTotal < procTotal snap.dir ∨ state.scanAllProc = true ∨
          q ∈ state.trackedPids) := by
      intro q
      rw [sync_again hsub, hscan, htracked]
      tauto
    constructor
    · intro h
      refine ⟨fun _ => ?_, fun hn => absurd hdue hn⟩
      by_cases hs : state.scanAllProc = true
      · exact .inl hs
      by_cases ht : state.lastProcTotal < procTotal snap.dir
      · exact .inr (.inl ht)
      · refine .inr (.inr fun q he => ?_)
        rcases ((hsecond q).mp ((h q).mpr he)).2 with hlt | hsc | hq
        · exact absurd hlt ht
        · exact absurd hsc hs
        · exact hq
    · intro h q
      rw [hsecond, and_iff_left_iff_imp]
      intro he
      rcases h.due hdue with hs | ht | hall
      · exact .inr (.inl hs)
      · exact .inl ht
      · exact .inr (.inr (hall q he))
  · obtain ⟨htracked, hscan, hcount⟩ := @sync_idle cfg state snap hdue
    have hidle : ¬ RebuildDue (procCacheSync state cfg snap).2 snap := by
      unfold RebuildDue at hdue ⊢
      rw [hscan, htracked, hcount]
      rintro (hs | hp | ⟨cur, hp, hlt⟩ | hd)
      · exact hdue (.inl hs)
      · exact hdue (.inr (.inl hp))
      · rw [hp, Option.getD_some] at hlt
        omega
      · exact hdue (.inr (.inr (.inr hd)))
    rw [(sync_idle hidle).1, htracked]
    exact ⟨fun h => ⟨fun hd => absurd hd hdue, fun _ => h⟩, fun h => h.idle hdue⟩

/-- A process that starts later is not discovered: the process count grew by one. -/
theorem later_process_untracked :
    ∃ state, Runs.Reachable ProcState.step ProcState.SnapshotsOwned (· = ProcState.new) state ∧
      ¬ ∀ q, q ∈ (procCacheSync (procCacheSync state oneRule ProcState.twoProcesses).2 oneRule ProcState.twoProcesses).2.trackedPids ↔
        Expected oneRule ProcState.twoProcesses.dir q := by
  refine ⟨(procCacheSync (procCacheSync ProcState.new oneRule ProcState.oneProcess).2 oneRule
    ProcState.oneProcess).2, ⟨_, rfl, .tail (a := .sync oneRule ProcState.oneProcess)
      (.single (a := .sync oneRule ProcState.oneProcess) ProcState.oneProcess_owned rfl)
        ProcState.oneProcess_owned rfl⟩, fun h => ?_⟩
  have hexp : Expected oneRule ProcState.twoProcesses.dir 20 :=
    ⟨_, List.mem_cons_of_mem _ (List.mem_singleton_self _), rfl, _, rfl, _, rfl, _, List.mem_singleton_self _, rfl⟩
  have hmem := (h 20).mpr hexp
  revert hmem
  decide +kernel

end AetherOptExt
