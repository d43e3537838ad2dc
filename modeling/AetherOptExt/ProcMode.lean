import AetherOptExt.Daemon
import AetherOptExt.Lib.Runs

/-! # The cache in proc mode (`main.rs`)

Without eBPF the daemon polls `/proc`.  `procCacheSync` rebuilds the cache when the process
count has jumped, when a tracked process is gone or when a full scan is due; the rebuild only
fills the cache, and `affinity_sync` binds the threads later.

What a rebuild leaves is said once: `Filled` relates the cache after some entries of the
listing to these entries.  From it follow the agreement of `pkgs` and `tasks` and that every
mapped process is tracked (`procMode_consistent`), and which processes are tracked
(`mem_newTracked_iff`). -/

namespace AetherOptExt

/-- `ProcState`. -/
structure ProcState where
  cache : ProcCache
  lastProcCount : ℕ
  scanAllProc : Bool
  trackedPids : KeySet Tid
  lastProcTotal : ℕ
  forceAffinity : Bool

def ProcState.new : ProcState :=
  { cache := ProcCache.new, lastProcCount := 0, scanAllProc := true, trackedPids := KeySet.empty
    lastProcTotal := 0, forceAffinity := false }

/-- What one call of `proc_cache_sync` sees: the process count of `sysinfo`, `none` when the
call fails, which pids `kill(pid, 0)` finds, and the listing of `/proc`. -/
structure ProcSnapshot where
  procs : Option ℕ
  alive : Tid → Bool
  dir : Option (List ProcReading)

/-- The `apply_fn` of a rebuild: it binds nothing and reports no thread as exited. -/
def noApply : Tid → CpuSet → Str → Unit → Bool × Unit := fun _ _ _ s => (false, s)

/-- One thread of a rebuild: the cache and the flag `any`. -/
def syncTask (cfg : AppConfig) (pid : Tid) (pkg : Str) (htr : Bool) (acc : ProcCache × Bool) (t : TidReading) :
    ProcCache × Bool :=
  let out := acc.1.taskApply t.env.createDir t.tid pid pkg (scanName htr t.comm) htr cfg true noApply ()
  (out.2.1, acc.2 || out.1)

/-- The state of a rebuild. -/
structure Rebuild where
  cache : ProcCache
  newTracked : KeySet Tid
  currentTotal : ℕ

/-- One selected process of a rebuild. -/
def syncTarget (cfg : AppConfig) (acc : Rebuild) (t : ScanTarget) : Rebuild :=
  match t.tids with
  | none => acc
  | some tids =>
      let out := tids.foldl (syncTask cfg t.pid t.pkg t.htr) (acc.cache, false)
      if out.2 then
        { acc with
          cache := { out.1 with pkgs := out.1.pkgs.insert t.pid (t.pkg, t.htr) }
          newTracked := acc.newTracked.insert t.pid }
      else { acc with cache := out.1 }

/-- One entry of the listing; without a full scan the untracked pids are passed over. -/
def syncEntry (cfg : AppConfig) (scanAll : Bool) (tracked : KeySet Tid) (acc : Rebuild) (r : ProcReading) :
    Rebuild :=
  match r.pid with
  | none => acc
  | some pid =>
      let acc := { acc with currentTotal := acc.currentTotal + 1 }
      if !scanAll && !decide (pid ∈ tracked) then acc
      else match scanTarget cfg r with
        | none => acc
        | some t => syncTarget cfg acc t

/-- The rebuild of `proc_cache_sync`. -/
def rebuild (cfg : AppConfig) (scanAll : Bool) (tracked : KeySet Tid) (cache : ProcCache)
    (dir : Option (List ProcReading)) : Rebuild :=
  (dir.getD []).foldl (syncEntry cfg scanAll tracked) ⟨cache.clear, KeySet.empty, 0⟩

/-- The part of `proc_cache_sync` that looks at `sysinfo`: the flag `need_reload` so far and
the state. -/
def syncCount (state : ProcState) (procs : Option ℕ) : Bool × ProcState :=
  match procs with
  | none => (true, state)
  | some cur =>
      if state.lastProcCount + 11 < cur then (true, { state with lastProcCount := cur })
      else if state.lastProcCount < cur then
        (state.scanAllProc, { state with forceAffinity := true, lastProcCount := cur })
      else (state.scanAllProc, { state with lastProcCount := cur })

/-- `proc_cache_sync`; the result says that the cache was rebuilt. -/
def procCacheSync (state : ProcState) (cfg : AppConfig) (snap : ProcSnapshot) : Bool × ProcState :=
  let (needReload, state) := syncCount state snap.procs
  if !needReload && state.trackedPids.order.all snap.alive then (false, state)
  else
    let b := rebuild cfg state.scanAllProc state.trackedPids state.cache snap.dir
    (true, { cache := b.cache, lastProcCount := state.lastProcCount
             scanAllProc := decide (state.lastProcTotal < b.currentTotal), trackedPids := b.newTracked
             lastProcTotal := b.currentTotal, forceAffinity := true })

/-! ### One process of a rebuild -/

/-- The name under which a rebuild matches a thread of a selected process. -/
def ScanTarget.threadName (t : ScanTarget) (x : TidReading) : Str :=
  ProcCache.threadName t.htr true (scanName t.htr x.comm)

/-- Some thread of the selected process has a binding. -/
def ScanTarget.Ruled (cfg : AppConfig) (t : ScanTarget) : Prop :=
  ∃ tids, t.tids = some tids ∧
    ∃ x ∈ tids, (threadAffinity x.env.createDir t.pkg (t.threadName x) cfg cfg.topo).isSome = true

/-- In a rebuild `task_apply` answers whether the thread has a binding: none is reported as
exited. -/
theorem taskApply_noApply_fst (mk : DirCall → Bool) (pc : ProcCache) (tid pid : Tid) (pkg comm : Str)
    (htr : Bool) (cfg : AppConfig) (trust : Bool) :
    (pc.taskApply mk tid pid pkg comm htr cfg trust noApply ()).1 =
      (threadAffinity mk pkg (ProcCache.threadName htr trust comm) cfg cfg.topo).isSome := by
  have hc := ProcCache.taskApply_case mk pc tid pid pkg comm htr cfg trust noApply ()
  generalize pc.taskApply mk tid pid pkg comm htr cfg trust noApply () = out at hc ⊢
  cases hc with
  | unruled h => rw [h]; rfl
  | kept h => rw [h]; rfl
  | gone _ _ hd => exact absurd hd Bool.false_ne_true
  | bound h => rw [h]; rfl

/-- What the threads read so far add to a cache: bindings of the process `pid` for the threads
of `own`, one of them whenever the flag is raised. -/
structure Adds (pid : Tid) (own : Tid → Prop) (pc : ProcCache) (out : ProcCache × Bool) : Prop where
  pkgs : out.1.pkgs = pc.pkgs
  keeps : ∀ t q, pc.BoundTo t q → out.1.BoundTo t q
  added : ∀ t q, out.1.BoundTo t q → pc.BoundTo t q ∨ (q = pid ∧ own t ∧ out.2 = true)
  flag : out.2 = true → out.1.HasTask pid

variable {cfg : AppConfig} {pid : Tid} {pkg : Str} {htr : Bool} {own : Tid → Prop} {pc : ProcCache}

theorem Adds.syncTask {out : ProcCache × Bool} (h : Adds pid own pc out) {t : TidReading} (ht : own t.tid)
    (hown : ∀ t q, own t → pc.BoundTo t q → q = pid) : Adds pid own pc (syncTask cfg pid pkg htr out t) := by
  have hbound : ∀ u q, own u → out.1.BoundTo u q → q = pid := by
    intro u q hu hb
    rcases h.added u q hb with hb | ⟨hq, -, -⟩
    · exact hown u q hu hb
    · exact hq
  unfold AetherOptExt.syncTask
  have hc := ProcCache.taskApply_case t.env.createDir out.1 t.tid pid pkg (scanName htr t.comm) htr cfg true noApply ()
  generalize out.1.taskApply t.env.createDir t.tid pid pkg (scanName htr t.comm) htr cfg true noApply () = res at hc ⊢
  cases hc with
  | unruled =>
      simp only [Bool.or_false]
      exact h
  | kept _ hk =>
      obtain ⟨e, he, -, -⟩ := ProcCache.keeps_mem hk
      have hself : out.1.BoundTo t.tid pid := ⟨e, he, hbound t.tid e.pid ht ⟨e, he, rfl⟩⟩
      simp only [Bool.or_true]
      refine ⟨h.pkgs, h.keeps, fun u q hb => ?_, fun _ => ⟨t.tid, hself⟩⟩
      exact (h.added u q hb).imp_right fun hq => ⟨hq.1, hq.2.1, rfl⟩
  | gone _ _ hd => exact absurd hd Bool.false_ne_true
  | @bound r _ _ _ =>
      have hlookup : ∀ u, ((out.1.tasks.erase t.tid).insert t.tid (ProcCache.entryOf pid r)).lookup u =
          if u = t.tid then some (ProcCache.entryOf pid r) else out.1.tasks.lookup u := by
        intro u
        rw [KeyMap.lookup_insert, KeyMap.lookup_erase]
        split_ifs <;> rfl
      simp only [Bool.or_true]
      refine ⟨h.pkgs, fun u q hb => ?_, fun u q hb => ?_, fun _ => ⟨t.tid, _, (hlookup t.tid).trans (if_pos rfl), rfl⟩⟩
      · obtain ⟨e, he, hq⟩ := h.keeps u q hb
        rcases eq_or_ne u t.tid with rfl | hne
        · exact ⟨_, (hlookup t.tid).trans (if_pos rfl), (hown t.tid q ht hb).symm⟩
        · exact ⟨e, (hlookup u).trans ((if_neg hne).trans he), hq⟩
      · obtain ⟨e, he, hq⟩ := hb
        rw [hlookup] at he
        split_ifs at he with hu
        · obtain rfl := Option.some.inj he
          exact .inr ⟨hq.symm, hu ▸ ht, rfl⟩
        · exact (h.added u q ⟨e, he, hq⟩).imp_right fun hq => ⟨hq.1, hq.2.1, rfl⟩

theorem Adds.foldl_syncTask (hown : ∀ t q, own t → pc.BoundTo t q → q = pid) : ∀ (tids : List TidReading)
    {out : ProcCache × Bool}, (∀ t ∈ tids, own t.tid) → Adds pid own pc out →
      Adds pid own pc (tids.foldl (AetherOptExt.syncTask cfg pid pkg htr) out)
  | [], _, _, h => h
  | t :: tids, _, ht, h =>
      Adds.foldl_syncTask hown tids (fun u hu => ht u (List.mem_cons_of_mem t hu))
        (h.syncTask (ht t List.mem_cons_self) hown)

/-- The flag `any` of a process. -/
theorem foldl_syncTask_any : ∀ (tids : List TidReading) (acc : ProcCache × Bool),
    (tids.foldl (syncTask cfg pid pkg htr) acc).2 = true ↔ acc.2 = true ∨
      ∃ x ∈ tids, (threadAffinity x.env.createDir pkg (ProcCache.threadName htr true (scanName htr x.comm)) cfg
        cfg.topo).isSome = true
  | [], acc => by simp
  | x :: tids, acc => by
      have hstep : (syncTask cfg pid pkg htr acc x).2 = (acc.2 ||
          (threadAffinity x.env.createDir pkg (ProcCache.threadName htr true (scanName htr x.comm)) cfg
            cfg.topo).isSome) := by
        unfold syncTask
        dsimp only
        rw [taskApply_noApply_fst]
      rw [List.foldl_cons, foldl_syncTask_any tids, hstep, Bool.or_eq_true, or_assoc, List.exists_mem_cons_iff]

/-! ### Which processes a rebuild tracks -/

theorem mem_syncTarget_newTracked (acc : Rebuild) (t : ScanTarget) (q : Tid) :
    q ∈ (syncTarget cfg acc t).newTracked ↔ q ∈ acc.newTracked ∨ (q = t.pid ∧ t.Ruled cfg) := by
  unfold syncTarget ScanTarget.Ruled
  cases htids : t.tids with
  | none => simp
  | some tids =>
      have hany := @foldl_syncTask_any cfg t.pid t.pkg t.htr tids (acc.cache, false)
      simp only [Bool.false_eq_true, false_or] at hany
      simp only [Option.some.injEq, exists_eq_left']
      by_cases h : (tids.foldl (syncTask cfg t.pid t.pkg t.htr) (acc.cache, false)).2 = true
      · have hex := hany.mp h
        rw [if_pos h]
        simp only [KeySet.mem_insert]
        constructor
        · rintro (hq | hq)
          · exact .inr ⟨hq, hex⟩
          · exact .inl hq
        · rintro (hq | ⟨hq, -⟩)
          · exact .inr hq
          · exact .inl hq
      · rw [if_neg h]
        constructor
        · exact .inl
        · rintro (hq | ⟨-, hex⟩)
          · exact hq
          · exact absurd (hany.mpr hex) h

theorem mem_syncEntry_newTracked (scanAll : Bool) (tracked : KeySet Tid) (acc : Rebuild) (r : ProcReading) (q : Tid) :
    q ∈ (syncEntry cfg scanAll tracked acc r).newTracked ↔ q ∈ acc.newTracked ∨
      (r.pid = some q ∧ (scanAll = true ∨ q ∈ tracked) ∧ ∃ t, scanTarget cfg r = some t ∧ t.Ruled cfg) := by
  unfold syncEntry
  cases hp : r.pid with
  | none => simp
  | some pid =>
      by_cases hskip : (!scanAll && !decide (pid ∈ tracked)) = true
      · simp only [Bool.and_eq_true, Bool.not_eq_true', decide_eq_false_iff_not] at hskip
        simp only [hskip.1, hskip.2, decide_false, Bool.not_false, Bool.and_self, if_true, Bool.false_eq_true, false_or]
        constructor
        · exact .inl
        · rintro (hq | ⟨hq, hm, -⟩)
          · exact hq
          · rw [Option.some.inj hq] at hskip
            exact absurd hm hskip.2
      · dsimp only
        rw [if_neg hskip]
        have hscan : scanAll = true ∨ pid ∈ tracked := by
          by_contra hno
          rw [not_or, Bool.not_eq_true] at hno
          exact hskip (by simp [hno.1, hno.2])
        cases hs : scanTarget cfg r with
        | none => simp
        | some t =>
            obtain ⟨pid', pkg, hpid', -, -, rfl⟩ := scanTarget_eq_some.mp hs
            rw [hp, Option.some.injEq] at hpid'
            subst hpid'
            simp only [mem_syncTarget_newTracked, Option.some.injEq, exists_eq_left']
            constructor
            · rintro (hq | ⟨rfl, hr⟩)
              · exact .inl hq
              · exact .inr ⟨rfl, hscan, hr⟩
            · rintro (hq | ⟨rfl, -, hr⟩)
              · exact .inl hq
              · exact .inr ⟨rfl, hr⟩

theorem mem_foldl_syncEntry_newTracked (scanAll : Bool) (tracked : KeySet Tid) (q : Tid) :
    ∀ (dir : List ProcReading) (acc : Rebuild),
      q ∈ (dir.foldl (syncEntry cfg scanAll tracked) acc).newTracked ↔ q ∈ acc.newTracked ∨
        ((scanAll = true ∨ q ∈ tracked) ∧ ∃ r ∈ dir, r.pid = some q ∧ ∃ t, scanTarget cfg r = some t ∧ t.Ruled cfg)
  | [], acc => by simp
  | r :: dir, acc => by
      rw [List.foldl_cons, mem_foldl_syncEntry_newTracked scanAll tracked q dir, mem_syncEntry_newTracked,
        List.exists_mem_cons_iff, or_assoc, and_or_left, and_left_comm (a := r.pid = some q)]

/-- The processes of a listing that are configured and have a thread with a binding. -/
def Expected (cfg : AppConfig) (dir : Option (List ProcReading)) (q : Tid) : Prop :=
  ∃ r ∈ dir.getD [], r.pid = some q ∧ ∃ t, scanTarget cfg r = some t ∧ t.Ruled cfg

/-- A rebuild tracks the expected processes, without a full scan only those tracked before. -/
theorem mem_newTracked_iff {scanAll : Bool} {tracked : KeySet Tid} {cache : ProcCache}
    {dir : Option (List ProcReading)} {q : Tid} :
    q ∈ (rebuild cfg scanAll tracked cache dir).newTracked ↔
      (scanAll = true ∨ q ∈ tracked) ∧ Expected cfg dir q := by
  unfold rebuild Expected
  rw [mem_foldl_syncEntry_newTracked]
  simp

/-- The number of processes in a listing. -/
def procTotal (dir : Option (List ProcReading)) : ℕ := ((dir.getD []).filterMap ProcReading.pid).length

theorem syncTarget_currentTotal (acc : Rebuild) (t : ScanTarget) :
    (syncTarget cfg acc t).currentTotal = acc.currentTotal := by
  unfold syncTarget
  cases t.tids with
  | none => rfl
  | some tids =>
      dsimp only
      split_ifs <;> rfl

theorem foldl_syncEntry_currentTotal (scanAll : Bool) (tracked : KeySet Tid) :
    ∀ (dir : List ProcReading) (acc : Rebuild),
      (dir.foldl (syncEntry cfg scanAll tracked) acc).currentTotal =
        acc.currentTotal + (dir.filterMap ProcReading.pid).length
  | [], acc => rfl
  | r :: dir, acc => by
      rw [List.foldl_cons, foldl_syncEntry_currentTotal scanAll tracked dir]
      unfold syncEntry
      cases hp : r.pid with
      | none => simp [hp]
      | some pid =>
          have hone : ∀ b : Rebuild, b.currentTotal = acc.currentTotal + 1 →
              b.currentTotal + (dir.filterMap ProcReading.pid).length =
                acc.currentTotal + ((r :: dir).filterMap ProcReading.pid).length := by
            intro b hb
            rw [hb, List.filterMap_cons_some hp, List.length_cons]
            omega
          apply hone
          dsimp only
          split_ifs
          · rfl
          · cases scanTarget cfg r with
            | none => rfl
            | some t => exact syncTarget_currentTotal _ t

theorem rebuild_currentTotal {scanAll : Bool} {tracked : KeySet Tid} {cache : ProcCache}
    {dir : Option (List ProcReading)} : (rebuild cfg scanAll tracked cache dir).currentTotal = procTotal dir := by
  unfold rebuild procTotal
  rw [foldl_syncEntry_currentTotal, Nat.zero_add]

/-! ### What a rebuild leaves in the cache -/

/-- The threads listed for an entry. -/
def ProcReading.threads (r : ProcReading) : List Tid := (r.tids.getD []).map (·.tid)

/-- Each listed thread belongs to one process. -/
def ThreadsOwned (dir : List ProcReading) : Prop :=
  ∀ r ∈ dir, ∀ r' ∈ dir, ∀ p p' t, r.pid = some p → r'.pid = some p' → t ∈ r.threads → t ∈ r'.threads → p = p'

/-- The cache agrees with itself, its processes are tracked, and its threads are listed. -/
structure Filled (dir : List ProcReading) (acc : Rebuild) : Prop where
  agree : acc.cache.Agree
  tracked : ∀ q ∈ acc.cache.pkgs, q ∈ acc.newTracked
  listed : ∀ t q, acc.cache.BoundTo t q → ∃ r ∈ dir, r.pid = some q ∧ t ∈ r.threads

theorem Filled.syncTarget {dir : List ProcReading} {acc : Rebuild} (h : Filled dir acc) (hd : ThreadsOwned dir)
    {r : ProcReading} (hr : r ∈ dir) {t : ScanTarget} (ht : scanTarget cfg r = some t) :
    Filled dir (syncTarget cfg acc t) := by
  obtain ⟨pid, pkg, hpid, -, -, rfl⟩ := scanTarget_eq_some.mp ht
  unfold AetherOptExt.syncTarget
  cases htids : r.tids with
  | none => exact h
  | some tids =>
      have hthreads : r.threads = tids.map (·.tid) := by
        unfold ProcReading.threads
        rw [htids]
        rfl
      -- a thread of this process that is bound already is bound to it
      have hown : ∀ u q, u ∈ r.threads → acc.cache.BoundTo u q → q = pid := by
        intro u q hu hb
        obtain ⟨r', hr', hq, hu'⟩ := h.listed u q hb
        exact hd r' hr' r hr q pid u hq hpid hu' hu
      have hstart : Adds pid (· ∈ r.threads) acc.cache (acc.cache, false) :=
        ⟨rfl, fun _ _ hb => hb, fun _ _ hb => .inl hb, fun hf => absurd hf Bool.false_ne_true⟩
      have hadds := @Adds.foldl_syncTask cfg pid pkg (cfg.pkgHasThreadRules pkg) _ _ hown tids _
        (fun x hx => by rw [hthreads]; exact List.mem_map_of_mem hx) hstart
      dsimp only
      generalize tids.foldl (syncTask cfg pid pkg (cfg.pkgHasThreadRules pkg)) (acc.cache, false) = out at hadds ⊢
      have hlisted : ∀ u q, out.1.BoundTo u q → ∃ r ∈ dir, r.pid = some q ∧ u ∈ r.threads := by
        intro u q hb
        rcases hadds.added u q hb with hb | ⟨rfl, hu, -⟩
        · exact h.listed u q hb
        · exact ⟨r, hr, hpid, hu⟩
      have hkeep : ∀ q ∈ acc.cache.pkgs, out.1.HasTask q := by
        intro q hq
        obtain ⟨u, hu⟩ := (h.agree q).mp hq
        exact ⟨u, hadds.keeps u q hu⟩
      split_ifs with hany
      · refine ⟨fun q => ?_, fun q hq => ?_, hlisted⟩
        · constructor
          · intro hq
            rcases KeyMap.mem_insert.mp hq with rfl | hq
            · exact hadds.flag hany
            · rw [hadds.pkgs] at hq
              exact hkeep q hq
          · rintro ⟨u, hu⟩
            rcases hadds.added u q hu with hb | ⟨rfl, -, -⟩
            · refine KeyMap.mem_insert.mpr (.inr ?_)
              rw [hadds.pkgs]
              exact (h.agree q).mpr ⟨u, hb⟩
            · exact KeyMap.mem_insert.mpr (.inl rfl)
        · rcases KeyMap.mem_insert.mp hq with rfl | hq
          · exact KeySet.mem_insert.mpr (.inl rfl)
          · rw [hadds.pkgs] at hq
            exact KeySet.mem_insert.mpr (.inr (h.tracked q hq))
      · refine ⟨fun q => ?_, fun q hq => ?_, hlisted⟩
        · rw [hadds.pkgs]
          constructor
          · exact hkeep q
          · rintro ⟨u, hu⟩
            rcases hadds.added u q hu with hb | ⟨-, -, hf⟩
            · exact (h.agree q).mpr ⟨u, hb⟩
            · exact absurd hf hany
        · rw [hadds.pkgs] at hq
          exact h.tracked q hq

theorem Filled.syncEntry {dir : List ProcReading} {acc : Rebuild} (h : Filled dir acc) (hd : ThreadsOwned dir)
    (scanAll : Bool) (tracked : KeySet Tid) {r : ProcReading} (hr : r ∈ dir) :
    Filled dir (syncEntry cfg scanAll tracked acc r) := by
  unfold AetherOptExt.syncEntry
  cases r.pid with
  | none => exact h
  | some pid =>
      have h' : Filled dir { acc with currentTotal := acc.currentTotal + 1 } := ⟨h.agree, h.tracked, h.listed⟩
      dsimp only
      split_ifs
      · exact h'
      · cases hs : scanTarget cfg r with
        | none => exact h'
        | some t => exact h'.syncTarget hd hr hs

theorem Filled.foldl_syncEntry {dir : List ProcReading} (hd : ThreadsOwned dir) (scanAll : Bool)
    (tracked : KeySet Tid) : ∀ (rs : List ProcReading) {acc : Rebuild}, (∀ r ∈ rs, r ∈ dir) → Filled dir acc →
      Filled dir (rs.foldl (AetherOptExt.syncEntry cfg scanAll tracked) acc)
  | [], _, _, h => h
  | r :: rs, _, hrs, h =>
      Filled.foldl_syncEntry hd scanAll tracked rs (fun u hu => hrs u (List.mem_cons_of_mem r hu))
        (h.syncEntry hd scanAll tracked (hrs r List.mem_cons_self))

/-! ### Runs of proc mode -/

/-- What proc mode does to its state. -/
inductive ProcLabel where
  | configChanged
  | sync (cfg : AppConfig) (snap : ProcSnapshot)
  | affinity (env : Tid → Env) (topo : CpuTopology)

namespace ProcState

def step (state : ProcState) : ProcLabel → Option ProcState
  | .configChanged => some { state with scanAllProc := true }
  | .sync cfg snap => some (procCacheSync state cfg snap).2
  | .affinity env topo =>
      some { state with cache := (state.cache.affinitySync env topo).2, forceAffinity := false }

/-- In the snapshots of the run each thread belongs to one process. -/
def SnapshotsOwned (_ : ProcState) : ProcLabel → Prop
  | .sync _ snap => ThreadsOwned (snap.dir.getD [])
  | _ => True

/-- A process is mapped exactly while one of its threads is bound, and it is tracked then. -/
structure Consistent (state : ProcState) : Prop where
  agree : state.cache.Agree
  tracked : ∀ q ∈ state.cache.pkgs, q ∈ state.trackedPids

theorem consistent_new : new.Consistent where
  agree := ProcCache.agree_new
  tracked q hq := absurd hq (AList.notMem_empty q)

theorem syncCount_cache (state : ProcState) (procs : Option ℕ) :
    (syncCount state procs).2.cache = state.cache ∧ (syncCount state procs).2.trackedPids = state.trackedPids := by
  unfold syncCount
  cases procs with
  | none => exact ⟨rfl, rfl⟩
  | some cur =>
      dsimp only
      split_ifs
      · exact ⟨rfl, rfl⟩
      · exact ⟨rfl, rfl⟩
      · exact ⟨rfl, rfl⟩

theorem Consistent.sync {state : ProcState} (h : state.Consistent) (cfg : AppConfig) {snap : ProcSnapshot}
    (hd : ThreadsOwned (snap.dir.getD [])) : (procCacheSync state cfg snap).2.Consistent := by
  obtain ⟨hcache, htracked⟩ := syncCount_cache state snap.procs
  unfold procCacheSync
  generalize syncCount state snap.procs = c at hcache htracked ⊢
  obtain ⟨need, st⟩ := c
  dsimp only at hcache htracked ⊢
  split_ifs
  · exact ⟨by rw [hcache]; exact h.agree, by rw [hcache, htracked]; exact h.tracked⟩
  · have hempty : Filled (snap.dir.getD []) ⟨st.cache.clear, KeySet.empty, 0⟩ :=
      ⟨ProcCache.agree_new, fun q hq => absurd hq (AList.notMem_empty q),
        fun t q ⟨e, he, _⟩ => absurd (KeyMap.mem_of_lookup he) (AList.notMem_empty t)⟩
    have hfilled := @Filled.foldl_syncEntry cfg _ hd st.scanAllProc st.trackedPids _ _ (fun r hr => hr) hempty
    exact ⟨hfilled.agree, hfilled.tracked⟩

theorem Consistent.affinity {state : ProcState} (h : state.Consistent) (env : Tid → Env) (topo : CpuTopology) :
    ({ state with cache := (state.cache.affinitySync env topo).2, forceAffinity := false } :
      ProcState).Consistent where
  agree := h.agree.affinitySync env topo
  tracked q hq := h.tracked q (ProcCache.mem_pkgs_foldl_taskDel.mp hq).1

/-- **Proc mode keeps its cache consistent**, whatever the snapshots and the outcomes of
`affinity_set` are. -/
theorem procMode_consistent (state : ProcState)
    (h : Runs.Reachable step SnapshotsOwned (· = new) state) :
    (∀ pid, pid ∈ state.cache.pkgs ↔ ∃ tid e, state.cache.tasks.lookup tid = some e ∧ e.pid = pid) ∧
      ∀ pid ∈ state.cache.pkgs, pid ∈ state.trackedPids := by
  have hc : state.Consistent := by
    refine Runs.Reachable.invariant (fun s hs => ?_) (fun s a s' hs hok hstep => ?_) h
    · rw [hs]
      exact consistent_new
    cases a with
    | configChanged =>
        obtain rfl := Option.some.inj hstep
        exact ⟨hs.agree, hs.tracked⟩
    | sync cfg snap =>
        obtain rfl := Option.some.inj hstep
        exact hs.sync cfg hok
    | affinity env topo =>
        obtain rfl := Option.some.inj hstep
        exact hs.affinity env topo
  exact ⟨hc.agree, hc.tracked⟩

/-- A listed process `com.a` with its main thread. -/
def singleThread (pid : Tid) : ProcReading :=
  ⟨some pid, some "com.a".toList, none, some [⟨pid, none, allAlive⟩]⟩

theorem singleThread_owned (pids : List Tid) : ThreadsOwned (pids.map singleThread) := by
  intro r hr r' hr' p p' t hp hp' ht ht'
  obtain ⟨q, -, rfl⟩ := List.mem_map.mp hr
  obtain ⟨q', -, rfl⟩ := List.mem_map.mp hr'
  obtain rfl : q = p := Option.some.inj hp
  obtain rfl : q' = p' := Option.some.inj hp'
  exact (List.mem_singleton.mp ht).symm.trans (List.mem_singleton.mp ht')

/-- One listed process, `com.a` with pid 10. -/
def oneProcess : ProcSnapshot := ⟨some 1, fun t => t == 10, some [singleThread 10]⟩

theorem oneProcess_owned : ThreadsOwned (oneProcess.dir.getD []) := singleThread_owned [10]

/-- Two listed processes of `com.a`, with the pids 10 and 20. -/
def twoProcesses : ProcSnapshot :=
  ⟨some 2, fun t => t == 10 || t == 20, some [singleThread 10, singleThread 20]⟩

theorem twoProcesses_owned : ThreadsOwned (twoProcesses.dir.getD []) := singleThread_owned [10, 20]

/-- The correction finds that the process 20 has exited. -/
theorem procMode_consistent_two :
    ∃ state, Runs.run step new [.sync oneRule twoProcesses,
        .affinity (fun t => if t = 20 then allGone else allAlive) oneRule.topo] = some state ∧
      state.cache.tasks.keys = [10] ∧ state.cache.pkgs.keys = [10] ∧
      (∀ pid, pid ∈ state.cache.pkgs ↔ ∃ tid e, state.cache.tasks.lookup tid = some e ∧ e.pid = pid) ∧
      ∀ pid ∈ state.cache.pkgs, pid ∈ state.trackedPids := by
  obtain ⟨state, hs, hp⟩ := Runs.exists_run step new [.sync oneRule twoProcesses,
      .affinity (fun t => if t = 20 then allGone else allAlive) oneRule.topo]
    (fun state => decide (state.cache.tasks.keys = [10]) && decide (state.cache.pkgs.keys = [10])) (by decide +kernel)
  obtain ⟨s₁, h₁, hrun⟩ := Option.bind_eq_some_iff.mp hs
  obtain ⟨s₂, h₂, hrun⟩ := Option.bind_eq_some_iff.mp hrun
  obtain rfl := Option.some.inj hrun
  rw [Bool.and_eq_true, decide_eq_true_eq, decide_eq_true_eq] at hp
  have hsteps : Runs.Steps step SnapshotsOwned new s₂ :=
    .tail (a := .affinity _ _) (.single (a := .sync oneRule twoProcesses) twoProcesses_owned h₁) trivial h₂
  exact ⟨s₂, hs, hp.1, hp.2, procMode_consistent s₂ ⟨new, rfl, hsteps⟩⟩

end ProcState

end AetherOptExt
