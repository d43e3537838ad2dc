import AetherOptExt.FullScan
import AetherOptExt.AffinitySync

/-! # The two modes agree

With eBPF the daemon binds the threads while it scans `/proc` (`full_scan`); without it a rebuild
of `proc_cache_sync` only fills the cache, and `affinity_sync` binds the threads afterwards and
removes those that have exited.  On the same snapshot, with the same answers of the operating
system, both leave the same bindings (`modes_agree`).  They differ in `pkgs` only: `full_scan`
maps every selected process, a rebuild those with a bound thread. -/

namespace AetherOptExt

open ProcCache

/-- The entry that a rebuild makes of a reading: it does not ask whether the thread is still there. -/
def rebuiltEntry (cfg : AppConfig) (t : ScanTarget) (x : TidReading) : Option TaskEntry :=
  (threadAffinity x.env.createDir t.pkg (t.threadName x) cfg cfg.topo).map (entryOf t.pid)

theorem readingEntry_eq_some {cfg : AppConfig} {t : ScanTarget} {x : TidReading} {e : TaskEntry} :
    readingEntry cfg t x = some e ↔
      rebuiltEntry cfg t x = some e ∧ affinitySet x.env x.tid e.cpus e.cpusetDir cfg.topo = false := by
  unfold readingEntry rebuiltEntry
  rw [Option.bind_eq_some_iff, Option.map_eq_some_iff]
  constructor
  · rintro ⟨r, hr, he⟩
    split_ifs at he with hd
    obtain rfl := Option.some.inj he
    exact ⟨⟨r, hr, rfl⟩, Bool.eq_false_iff.mpr hd⟩
  · rintro ⟨⟨r, hr, rfl⟩, hd⟩
    have hd' : affinitySet x.env x.tid r.cpus r.cpusetDir cfg.topo = false := hd
    exact ⟨r, hr, if_neg (by rw [hd']; decide)⟩

/-! ### A rebuild -/

section

variable {cfg : AppConfig} {t : ScanTarget} {x : TidReading} {u : Tid}

theorem syncTask_lookup_ne (hu : x.tid ≠ u) (acc : ProcCache × Bool) :
    (syncTask cfg t.pid t.pkg t.htr acc x).1.tasks.lookup u = acc.1.tasks.lookup u :=
  taskApply_lookup_ne (taskApply_case ..) hu.symm

/-- A thread without an entry, or with the one its reading makes, has that one afterwards. -/
theorem syncTask_lookup_self {acc : ProcCache × Bool}
    (h : acc.1.tasks.lookup x.tid = none ∨ acc.1.tasks.lookup x.tid = rebuiltEntry cfg t x) :
    (syncTask cfg t.pid t.pkg t.htr acc x).1.tasks.lookup x.tid = rebuiltEntry cfg t x := by
  have hc := taskApply_case x.env.createDir acc.1 x.tid t.pid t.pkg (scanName t.htr x.comm) t.htr cfg true noApply ()
  unfold syncTask
  generalize acc.1.taskApply x.env.createDir x.tid t.pid t.pkg (scanName t.htr x.comm) t.htr cfg true noApply () = out
    at hc ⊢
  cases hc with
  | unruled hr =>
      have he : rebuiltEntry cfg t x = none := by
        unfold rebuiltEntry ScanTarget.threadName
        rw [hr]
        rfl
      rw [he, or_self] at h
      rw [he]
      exact h
  | @kept r hr hk =>
      -- the entry that stays is a thread rule's, and the reading makes another
      obtain ⟨e, he, hold, hnew⟩ := keeps_mem hk
      exfalso
      rcases h with h | h
      · rw [he] at h
        cases h
      · unfold rebuiltEntry ScanTarget.threadName at h
        rw [he, hr] at h
        obtain rfl := Option.some.inj h
        have hthread : r.isThreadRule = true := hold
        rw [hthread] at hnew
        cases hnew
  | gone _ _ hd => exact absurd hd Bool.false_ne_true
  | @bound r hr hk hd =>
      have he : rebuiltEntry cfg t x = some (entryOf t.pid r) := by
        unfold rebuiltEntry ScanTarget.threadName
        rw [hr]
        rfl
      rw [he]
      exact AList.lookup_insert _

/-- The cache after one process, by the threads it reads. -/
theorem syncTarget_lookup (acc : Rebuild) :
    (syncTarget cfg acc t).cache.tasks.lookup u =
      ((t.tids.getD []).foldl (syncTask cfg t.pid t.pkg t.htr) (acc.cache, false)).1.tasks.lookup u := by
  unfold syncTarget
  cases t.tids with
  | none => rfl
  | some tids =>
      dsimp only
      split_ifs <;> rfl

theorem syncTarget_lookup_ne (h : ¬ t.Reads u) (acc : Rebuild) :
    (syncTarget cfg acc t).cache.tasks.lookup u = acc.cache.tasks.lookup u := by
  rw [syncTarget_lookup]
  refine Sweep.foldl_frame (fun acc : ProcCache × Bool => acc.1.tasks.lookup u) _ _ fun x hx acc =>
    syncTask_lookup_ne (fun hu => h ?_) acc
  cases htids : t.tids with
  | none =>
      rw [htids] at hx
      cases hx
  | some tids =>
      rw [htids] at hx
      exact ⟨tids, htids, x, hx, hu⟩

/-- A process is mapped under the name it was found with. -/
theorem syncTarget_pkgs_lookup (acc : Rebuild) {q : Tid} {p : Str × Bool}
    (h : (syncTarget cfg acc t).cache.pkgs.lookup q = some p) :
    acc.cache.pkgs.lookup q = some p ∨ (t.tids.isSome = true ∧ t.pid = q ∧ p = (t.pkg, t.htr)) := by
  have hframe : ∀ tids : List TidReading,
      (tids.foldl (syncTask cfg t.pid t.pkg t.htr) (acc.cache, false)).1.pkgs = acc.cache.pkgs := fun tids =>
    Sweep.foldl_frame (fun acc : ProcCache × Bool => acc.1.pkgs) tids _ fun x _ acc =>
      taskApply_pkgs (taskApply_case ..)
  unfold syncTarget at h
  cases htids : t.tids with
  | none =>
      rw [htids] at h
      exact Or.inl h
  | some tids =>
      rw [htids] at h
      dsimp only at h
      split_ifs at h
      · rw [KeyMap.lookup_insert, hframe] at h
        split_ifs at h with hq
        · exact Or.inr ⟨rfl, hq.symm, (Option.some.inj h).symm⟩
        · exact Or.inl h
      · rw [hframe] at h
        exact Or.inl h

/-- A process that reads a thread gives it the entry that all its readings of it make. -/
theorem syncTarget_lookup_of_reads {o : Option TaskEntry} (h : t.Reads u)
    (hval : ∀ tids, t.tids = some tids → ∀ x ∈ tids, x.tid = u → rebuiltEntry cfg t x = o) (acc : Rebuild)
    (hacc : acc.cache.tasks.lookup u = none ∨ acc.cache.tasks.lookup u = o) :
    (syncTarget cfg acc t).cache.tasks.lookup u = o := by
  obtain ⟨tids, htids, hread⟩ := h
  rw [syncTarget_lookup, htids]
  refine Sweep.foldl_write (fun acc : ProcCache × Bool => acc.1.tasks.lookup u) (fun x : TidReading => x.tid = u)
    tids _ (fun x _ hx acc => syncTask_lookup_ne hx acc) (fun x hx hxu acc hacc => ?_) hacc (Or.inr hread)
  subst hxu
  have hv := hval tids htids x hx rfl
  rw [← hv] at hacc ⊢
  exact syncTask_lookup_self hacc

/-- The process of an entry that a rebuild looks at. -/
def rebuildTarget (cfg : AppConfig) (scanAll : Bool) (tracked : KeySet Tid) (r : ProcReading) : Option ScanTarget :=
  (scanTarget cfg r).filter (fun t => scanAll || decide (t.pid ∈ tracked))

/-- An entry of the listing is passed over, or it is a process of the rebuild. -/
theorem syncEntry_cache (scanAll : Bool) (tracked : KeySet Tid) (acc : Rebuild) (r : ProcReading) :
    (syncEntry cfg scanAll tracked acc r).cache =
      match rebuildTarget cfg scanAll tracked r with
      | none => acc.cache
      | some t => (syncTarget cfg acc t).cache := by
  unfold syncEntry rebuildTarget
  cases hp : r.pid with
  | none =>
      have hs : scanTarget cfg r = none := by
        unfold scanTarget
        rw [hp]
        rfl
      rw [hs]
      rfl
  | some pid =>
      dsimp only
      cases hs : scanTarget cfg r with
      | none => split_ifs <;> rfl
      | some t =>
          obtain ⟨pid', pkg, hpid, -, -, rfl⟩ := scanTarget_eq_some.mp hs
          obtain rfl := Option.some.inj (hp.symm.trans hpid)
          by_cases hskip : (!scanAll && !decide (pid ∈ tracked)) = true
          · have hno : (scanAll || decide (pid ∈ tracked)) = false := by
              rw [Bool.and_eq_true, Bool.not_eq_true', Bool.not_eq_true'] at hskip
              rw [hskip.1, hskip.2]
              rfl
            rw [if_pos hskip, Option.filter_some, if_neg (by rw [hno]; decide)]
          · have hyes : (scanAll || decide (pid ∈ tracked)) = true := by
              by_contra hno
              rw [Bool.not_eq_true, Bool.or_eq_false_iff] at hno
              exact hskip (by rw [hno.1, hno.2]; rfl)
            rw [if_neg hskip, Option.filter_some, if_pos hyes]
            unfold syncTarget
            cases r.tids with
            | none => rfl
            | some tids =>
                dsimp only
                split_ifs <;> rfl

theorem rebuildTarget_eq_some {scanAll : Bool} {tracked : KeySet Tid} {r : ProcReading} :
    rebuildTarget cfg scanAll tracked r = some t ↔
      scanTarget cfg r = some t ∧ (scanAll = true ∨ t.pid ∈ tracked) := by
  unfold rebuildTarget
  rw [Option.filter_eq_some_iff, Bool.or_eq_true, decide_eq_true_eq]

/-- The processes that a rebuild looks at are those that a scan selects, without a full scan only
those tracked before. -/
theorem mem_rebuildTargets {scanAll : Bool} {tracked : KeySet Tid} {entries : List ProcReading} :
    t ∈ entries.filterMap (rebuildTarget cfg scanAll tracked) ↔
      t ∈ entries.filterMap (scanTarget cfg) ∧ (scanAll = true ∨ t.pid ∈ tracked) := by
  simp only [List.mem_filterMap, rebuildTarget_eq_some]
  constructor
  · rintro ⟨r, hr, ht, hv⟩
    exact ⟨⟨r, hr, ht⟩, hv⟩
  · rintro ⟨⟨r, hr, ht⟩, hv⟩
    exact ⟨r, hr, ht, hv⟩

end

/-! ### Rebuilds of a snapshot -/

section

variable {cfg : AppConfig} {entries : List ProcReading} {scanAll : Bool} {tracked : KeySet Tid} {cache : ProcCache}
  {u : Tid}

/-- The entries of a thread that the processes of the rebuild do not read. -/
theorem rebuild_lookup_none (h : ∀ t ∈ entries.filterMap (rebuildTarget cfg scanAll tracked), ¬ t.Reads u) :
    (rebuild cfg scanAll tracked cache (some entries)).cache.tasks.lookup u = none := by
  refine Sweep.foldl_frame (fun b : Rebuild => b.cache.tasks.lookup u) entries _ fun r hr b => ?_
  rw [syncEntry_cache]
  cases ht : rebuildTarget cfg scanAll tracked r with
  | none => rfl
  | some t => exact syncTarget_lookup_ne (h t (List.mem_filterMap.mpr ⟨r, hr, ht⟩)) b

/-- The entry of a thread that a process of the rebuild reads is the one its reading makes. -/
theorem rebuild_lookup (h : Snapshot entries) {t : ScanTarget}
    (ht : t ∈ entries.filterMap (rebuildTarget cfg scanAll tracked)) {tids : List TidReading}
    (htids : t.tids = some tids) {x : TidReading} (hx : x ∈ tids) :
    (rebuild cfg scanAll tracked cache (some entries)).cache.tasks.lookup x.tid = rebuiltEntry cfg t x := by
  obtain ⟨r, hr, hrt⟩ := List.mem_filterMap.mp ht
  refine Sweep.foldl_write (fun b : Rebuild => b.cache.tasks.lookup x.tid)
    (fun r : ProcReading => ∃ t, rebuildTarget cfg scanAll tracked r = some t ∧ t.Reads x.tid) entries _
    (fun r _ hn b => ?_) (fun r hr hread b hb => ?_) (Or.inl rfl) (Or.inr ⟨r, hr, t, hrt, tids, htids, x, hx, rfl⟩)
  · rw [syncEntry_cache]
    cases hs : rebuildTarget cfg scanAll tracked r with
    | none => rfl
    | some t => exact syncTarget_lookup_ne (fun hread => hn ⟨t, hs, hread⟩) b
  · obtain ⟨t', ht', hread'⟩ := hread
    rw [syncEntry_cache, ht']
    refine syncTarget_lookup_of_reads hread' (fun tids' htids' x' hx' hu => ?_) b hb
    have hmem := (mem_rebuildTargets.mp ht).1
    have hmem' := (mem_rebuildTargets.mp (List.mem_filterMap.mpr ⟨r, hr, ht'⟩)).1
    obtain ⟨rfl, rfl⟩ := h.reading_unique hmem' hmem htids' htids hx' hx hu
    rfl

/-- A thread has an entry after the rebuild exactly when a reading of it makes it. -/
theorem rebuild_lookup_iff (h : Snapshot entries) {e : TaskEntry} :
    (rebuild cfg scanAll tracked cache (some entries)).cache.tasks.lookup u = some e ↔
      ∃ t ∈ entries.filterMap (rebuildTarget cfg scanAll tracked), ∃ tids, t.tids = some tids ∧
        ∃ x ∈ tids, x.tid = u ∧ rebuiltEntry cfg t x = some e := by
  constructor
  · intro hl
    by_cases hread : ∃ t ∈ entries.filterMap (rebuildTarget cfg scanAll tracked), t.Reads u
    · obtain ⟨t, ht, tids, htids, x, hx, rfl⟩ := hread
      exact ⟨t, ht, tids, htids, x, hx, rfl, (rebuild_lookup h ht htids hx).symm.trans hl⟩
    · rw [rebuild_lookup_none fun t ht hr => hread ⟨t, ht, hr⟩] at hl
      cases hl
  · rintro ⟨t, ht, tids, htids, x, hx, rfl, he⟩
    exact (rebuild_lookup h ht htids hx).trans he

/-- Every process that a rebuild maps is one that it looks at, under the name it was found with. -/
theorem rebuild_pkgs_lookup {q : Tid} {p : Str × Bool}
    (h : (rebuild cfg scanAll tracked cache (some entries)).cache.pkgs.lookup q = some p) :
    ∃ t ∈ entries.filterMap (scanTarget cfg), t.tids.isSome = true ∧ t.pid = q ∧ p = (t.pkg, t.htr) := by
  suffices hgen : ∀ (rs : List ProcReading) (b : Rebuild), (∀ r ∈ rs, r ∈ entries) →
      (∀ p, b.cache.pkgs.lookup q = some p →
        ∃ t ∈ entries.filterMap (scanTarget cfg), t.tids.isSome = true ∧ t.pid = q ∧ p = (t.pkg, t.htr)) →
      ∀ p, (rs.foldl (syncEntry cfg scanAll tracked) b).cache.pkgs.lookup q = some p →
        ∃ t ∈ entries.filterMap (scanTarget cfg), t.tids.isSome = true ∧ t.pid = q ∧ p = (t.pkg, t.htr) by
    refine hgen entries _ (fun r hr => hr) (fun p hp => ?_) p h
    cases hp
  intro rs
  induction rs with
  | nil => exact fun b _ hb => hb
  | cons r rs ih =>
      intro b hrs hb
      refine ih _ (fun r' hr' => hrs r' (List.mem_cons_of_mem r hr')) fun p hp => ?_
      rw [syncEntry_cache] at hp
      cases ht : rebuildTarget cfg scanAll tracked r with
      | none =>
          rw [ht] at hp
          exact hb p hp
      | some t =>
          rw [ht] at hp
          have hmem := List.mem_filterMap.mpr ⟨r, hrs r List.mem_cons_self, (rebuildTarget_eq_some.mp ht).1⟩
          rcases syncTarget_pkgs_lookup b hp with hp | ⟨hs, hq, hpkg⟩
          · exact hb p hp
          · exact ⟨t, hmem, hs, hq, hpkg⟩

end

/-! ### Rebuilds without a full scan -/

/-- **A rebuild that looks at the tracked processes only** gives the same bindings as one that looks
at all of them exactly when every configured process with a binding is tracked. -/
theorem tracked_rebuild_exact (cfg : AppConfig) (entries : List ProcReading) (tracked tracked' : KeySet Tid)
    (cache cache' : ProcCache) (h : Snapshot entries) :
    (∀ u, (rebuild cfg false tracked cache (some entries)).cache.tasks.lookup u =
        (rebuild cfg true tracked' cache' (some entries)).cache.tasks.lookup u) ↔
      ∀ q, Expected cfg (some entries) q → q ∈ tracked := by
  constructor
  · rintro heq q ⟨r, hr, hq, t, ht, tids, htids, x, hx, hsome⟩
    obtain ⟨pid, pkg, hpid, -, -, rfl⟩ := scanTarget_eq_some.mp ht
    obtain rfl := Option.some.inj (hq.symm.trans hpid)
    obtain ⟨a, ha⟩ := Option.isSome_iff_exists.mp hsome
    have hmem := List.mem_filterMap.mpr ⟨r, hr, ht⟩
    have he : rebuiltEntry cfg ⟨q, pkg, cfg.pkgHasThreadRules pkg, r.tids⟩ x = some (entryOf q a) := by
      unfold rebuiltEntry
      rw [ha]
      rfl
    -- the thread has its entry in the full rebuild, so the other one looked at its process
    have hfull := heq x.tid
    rw [rebuild_lookup h (mem_rebuildTargets.mpr ⟨hmem, Or.inl rfl⟩) htids hx, he] at hfull
    obtain ⟨t', ht', tids', htids', x', hx', hu, -⟩ := (rebuild_lookup_iff h).mp hfull
    obtain ⟨hmem', hv⟩ := mem_rebuildTargets.mp ht'
    obtain ⟨rfl, -⟩ := h.reading_unique hmem' hmem htids' htids hx' hx hu
    exact hv.resolve_left Bool.false_ne_true
  · intro htracked u
    apply Option.ext
    intro e
    rw [rebuild_lookup_iff h, rebuild_lookup_iff h]
    simp only [mem_rebuildTargets, Bool.false_eq_true, false_or, true_or, and_true]
    constructor
    · rintro ⟨t, ⟨ht, -⟩, hread⟩
      exact ⟨t, ht, hread⟩
    · rintro ⟨t, ht, tids, htids, x, hx, rfl, he⟩
      refine ⟨t, ⟨ht, htracked t.pid ?_⟩, tids, htids, x, hx, rfl, he⟩
      obtain ⟨r, hr, hrt⟩ := List.mem_filterMap.mp ht
      obtain ⟨pid, pkg, hpid, -, -, rfl⟩ := scanTarget_eq_some.mp hrt
      obtain ⟨a, ha, -⟩ := Option.map_eq_some_iff.mp he
      exact ⟨r, hr, hpid, _, hrt, tids, htids, x, hx, Option.isSome_iff_exists.mpr ⟨a, ha⟩⟩

/-- The only process is not tracked yet: a rebuild that leaves it out gives another cache. -/
theorem tracked_rebuild_exact_untracked :
    Snapshot (ProcState.oneProcess.dir.getD []) ∧
      ((∀ u, (rebuild oneRule false KeySet.empty new (some (ProcState.oneProcess.dir.getD []))).cache.tasks.lookup u =
          (rebuild oneRule true KeySet.empty new (some (ProcState.oneProcess.dir.getD []))).cache.tasks.lookup u) ↔
        ∀ q, Expected oneRule (some (ProcState.oneProcess.dir.getD [])) q → q ∈ (KeySet.empty : KeySet Tid)) :=
  ⟨oneProcess_snapshot, tracked_rebuild_exact oneRule _ KeySet.empty KeySet.empty new new oneProcess_snapshot⟩

/-! ### The agreement -/

/-- A rebuild that is due looks at the whole listing. -/
theorem procCacheSync_full {state : ProcState} (hfull : state.scanAllProc = true) (cfg : AppConfig)
    (snap : ProcSnapshot) : ∃ tracked cache, (procCacheSync state cfg snap).2.cache =
      (rebuild cfg true tracked cache (some (snap.dir.getD []))).cache := by
  have hcount : (syncCount state snap.procs).1 = true ∧ (syncCount state snap.procs).2.scanAllProc = true := by
    unfold syncCount
    cases snap.procs with
    | none => exact ⟨rfl, hfull⟩
    | some cur =>
        dsimp only
        split_ifs
        · exact ⟨rfl, hfull⟩
        · exact ⟨hfull, hfull⟩
        · exact ⟨hfull, hfull⟩
  unfold procCacheSync
  generalize syncCount state snap.procs = c at hcount ⊢
  obtain ⟨need, st⟩ := c
  obtain ⟨rfl, hall⟩ : need = true ∧ st.scanAllProc = true := hcount
  exact ⟨st.trackedPids, st.cache,
    congrArg (fun all => (rebuild cfg all st.trackedPids st.cache (some (snap.dir.getD []))).cache) hall⟩

/-- The correction keeps the entries of the threads that are not reported. -/
theorem affinitySync_lookup_iff {pc : ProcCache} {env : Tid → Env} {topo : CpuTopology} {u : Tid} {e : TaskEntry} :
    (pc.affinitySync env topo).2.tasks.lookup u = some e ↔
      pc.tasks.lookup u = some e ∧ affinitySet (env u) u e.cpus e.cpusetDir topo = false := by
  rw [affinitySync_tasks_lookup]
  split_ifs with hd
  · obtain ⟨e', he', hdead⟩ := mem_deadTids.mp hd
    refine iff_of_false (by simp) fun ⟨he, halive⟩ => ?_
    obtain rfl := Option.some.inj (he.symm.trans he')
    rw [hdead] at halive
    cases halive
  · refine ⟨fun he => ⟨he, ?_⟩, fun he => he.1⟩
    by_contra hdead
    exact hd (mem_deadTids.mpr ⟨e, he, by simpa using hdead⟩)

/-- **The two modes agree.**  On one snapshot and with the same answers of the operating system, a
full rebuild and the correction after it bind the same threads in the same way as a full scan, which
has them in `APPLIED_MAP`; and they map the processes of the full scan that have a bound thread. -/
theorem modes_agree (state : ProcState) (cfg : AppConfig) (snap : ProcSnapshot) (env : Tid → Env) (pc : ProcCache)
    (applied : AppliedMap) (hfull : state.scanAllProc = true) (h : Snapshot (snap.dir.getD []))
    (henv : ∀ r ∈ snap.dir.getD [], ∀ tids, r.tids = some tids → ∀ x ∈ tids, x.env = env x.tid) :
    let scan := fullScan cfg snap.dir pc applied
    let poll := ((procCacheSync state cfg snap).2.cache.affinitySync env cfg.topo).2
    (∀ u, poll.tasks.lookup u = scan.1.tasks.lookup u) ∧ (∀ u, u ∈ scan.2 ↔ u ∈ poll.tasks) ∧
      ∀ q p, poll.pkgs.lookup q = some p ↔ scan.1.pkgs.lookup q = some p ∧ scan.1.HasTask q := by
  intro scan poll
  obtain ⟨tracked, cache, hcache⟩ := procCacheSync_full hfull cfg snap
  have hscan : scan = ((snap.dir.getD []).filterMap (scanTarget cfg)).foldl (scanProc cfg) (new, ∅) :=
    fullScan_eq cfg snap.dir pc applied
  have htasks : ∀ u, poll.tasks.lookup u = scan.1.tasks.lookup u := by
    intro u
    apply Option.ext
    intro e
    rw [hscan, scan_lookup_iff h]
    show (((procCacheSync state cfg snap).2.cache.affinitySync env cfg.topo).2).tasks.lookup u = some e ↔ _
    rw [affinitySync_lookup_iff, hcache, rebuild_lookup_iff h]
    simp only [mem_rebuildTargets, true_or, and_true, readingEntry_eq_some]
    constructor
    · rintro ⟨⟨t, ht, tids, htids, x, hx, rfl, he⟩, halive⟩
      obtain ⟨⟨r, hr, -, -, -, hl⟩, -⟩ := (mem_scanTargets htids).mp ht
      exact ⟨t, ht, tids, htids, x, hx, rfl, he, by rw [henv r hr tids hl x hx]; exact halive⟩
    · rintro ⟨t, ht, tids, htids, x, hx, rfl, he, halive⟩
      obtain ⟨⟨r, hr, -, -, -, hl⟩, -⟩ := (mem_scanTargets htids).mp ht
      rw [henv r hr tids hl x hx] at halive
      exact ⟨⟨t, ht, tids, htids, x, hx, rfl, he⟩, halive⟩
  have hbound : ∀ q, poll.HasTask q ↔ scan.1.HasTask q := fun q => by
    unfold HasTask BoundTo
    simp only [htasks]
  have hagree : poll.Agree := by
    have hempty : Filled (snap.dir.getD []) ⟨cache.clear, KeySet.empty, 0⟩ :=
      ⟨agree_new, fun q hq => absurd hq (AList.notMem_empty q),
        fun t q ⟨e, he, _⟩ => absurd (KeyMap.mem_of_lookup he) (AList.notMem_empty t)⟩
    have hfilled := @Filled.foldl_syncEntry cfg _ h.owned true tracked _ _ (fun r hr => hr) hempty
    show (((procCacheSync state cfg snap).2.cache.affinitySync env cfg.topo).2).Agree
    rw [hcache]
    exact hfilled.agree.affinitySync env cfg.topo
  -- both map a process under the name it was found with
  have hname : ∀ q p, poll.pkgs.lookup q = some p → scan.1.pkgs.lookup q = some p := by
    intro q p hp
    have hp' : (procCacheSync state cfg snap).2.cache.pkgs.lookup q = some p := foldl_taskDel_pkgs_lookup _ _ hp
    rw [hcache] at hp'
    obtain ⟨t, ht, hs, rfl, rfl⟩ := rebuild_pkgs_lookup hp'
    rw [hscan]
    exact foldl_scanProc_lookup cfg hs _ _ (h.pids.sublist (scanTargets_pids cfg _)) ht
  refine ⟨htasks, fun u => ?_, fun q p => ⟨fun hp => ?_, fun ⟨hp, hb⟩ => ?_⟩⟩
  · have happlied : u ∈ scan.2 ↔ u ∈ scan.1.tasks := by
      rw [hscan]
      exact scan_applied_iff h
    rw [happlied, ← AList.lookup_isSome, ← AList.lookup_isSome, htasks]
  · exact ⟨hname q p hp, (hbound q).mp ((hagree q).mp (KeyMap.mem_of_lookup hp))⟩
  · obtain ⟨p', hp'⟩ := KeyMap.mem_iff_lookup.mp ((hagree q).mpr ((hbound q).mpr hb))
    obtain rfl := Option.some.inj ((hname q p' hp').symm.trans hp)
    exact hp'

/-- One process that is there, polled by a daemon that has just been started. -/
theorem modes_agree_one :
    ((procCacheSync .new oneRule ProcState.oneProcess).2.cache.affinitySync (fun _ => allAlive)
        oneRule.topo).2.tasks.lookup 10 = (fullScan oneRule ProcState.oneProcess.dir new ∅).1.tasks.lookup 10 ∧
      (fullScan oneRule ProcState.oneProcess.dir new ∅).1.tasks.lookup 10 =
        some ⟨10, fromRange "0-3".toList, [], false⟩ := by
  obtain ⟨htasks, -, -⟩ := modes_agree .new oneRule ProcState.oneProcess (fun _ => allAlive) new ∅ rfl
    oneProcess_snapshot (fun r hr tids htids x hx => by
      rw [List.mem_singleton.mp hr] at htids
      obtain rfl := Option.some.inj htids
      rw [List.mem_singleton.mp hx])
  exact ⟨htasks 10, by decide +kernel⟩

end AetherOptExt
