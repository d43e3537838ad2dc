import AetherOptExt.EventEnforces
import AetherOptExt.ModeAgreement

/-! # Proc mode on a placement

Without eBPF a rebuild of `proc_cache_sync` answers for the threads it finds, which creates
directories, but binds none; `affinity_sync`, which the rebuild asks for, binds them afterwards.
Between the two other programs may move threads, and threads may start and exit.

`procCacheSyncIn` is the function of the source with a `Placement` as a state; it does to the cache
what `procCacheSync` does with the answers that the placement gives (`procCacheSyncIn_fst`).  A rebuild
and the correction after it put the rules in force for the threads of the processes that the rebuild
looks at (`Polled.rebuild_enforces`). -/

namespace AetherOptExt

open CpuSet ProcCache

/-! ### The steps of the source on a placement -/

namespace Placement

section

variable (fs : FsAnswers)

/-- One thread of a rebuild: the cache, the flag `any` and the placement. -/
def syncTaskIn (cfg : AppConfig) (pid : Tid) (pkg : Str) (htr : Bool) (acc : (ProcCache × Bool) × Placement)
    (t : TidReading) : (ProcCache × Bool) × Placement :=
  let made := (threadAffinityRun (answers fs acc.2.tree) pkg (threadName htr true (scanName htr t.comm)) cfg
    cfg.topo).2
  let out := acc.1.1.taskApply (answers fs acc.2.tree) t.tid pid pkg (scanName htr t.comm) htr cfg true noApply ()
  ((out.2.1, acc.1.2 || out.1), { acc.2 with tree := createAll fs acc.2.tree made })

/-- One selected process of a rebuild. -/
def syncTargetIn (cfg : AppConfig) (acc : Rebuild × Placement) (t : ScanTarget) : Rebuild × Placement :=
  match t.tids with
  | none => acc
  | some tids =>
      let out := tids.foldl (syncTaskIn fs cfg t.pid t.pkg t.htr) ((acc.1.cache, false), acc.2)
      if out.1.2 then
        ({ acc.1 with
            cache := { out.1.1 with pkgs := out.1.1.pkgs.insert t.pid (t.pkg, t.htr) }
            newTracked := acc.1.newTracked.insert t.pid }, out.2)
      else ({ acc.1 with cache := out.1.1 }, out.2)

/-- One entry of the listing. -/
def syncEntryIn (cfg : AppConfig) (scanAll : Bool) (tracked : KeySet Tid) (acc : Rebuild × Placement)
    (r : ProcReading) : Rebuild × Placement :=
  match r.pid with
  | none => acc
  | some pid =>
      let acc := ({ acc.1 with currentTotal := acc.1.currentTotal + 1 }, acc.2)
      if !scanAll && !decide (pid ∈ tracked) then acc
      else match scanTarget cfg r with
        | none => acc
        | some t => syncTargetIn fs cfg acc t

/-- The rebuild of `proc_cache_sync`. -/
def rebuildIn (cfg : AppConfig) (scanAll : Bool) (tracked : KeySet Tid) (cache : ProcCache)
    (dir : Option (List ProcReading)) (w : Placement) : Rebuild × Placement :=
  (dir.getD []).foldl (syncEntryIn fs cfg scanAll tracked) (⟨cache.clear, KeySet.empty, 0⟩, w)

/-- `proc_cache_sync`. -/
def procCacheSyncIn (state : ProcState) (cfg : AppConfig) (snap : ProcSnapshot) (w : Placement) :
    (Bool × ProcState) × Placement :=
  let (needReload, state) := syncCount state snap.procs
  if !needReload && state.trackedPids.order.all snap.alive then ((false, state), w)
  else
    let b := rebuildIn fs cfg state.scanAllProc state.trackedPids state.cache snap.dir w
    ((true, { cache := b.1.cache, lastProcCount := state.lastProcCount
              scanAllProc := decide (state.lastProcTotal < b.1.currentTotal), trackedPids := b.1.newTracked
              lastProcTotal := b.1.currentTotal, forceAffinity := true }), b.2)

/-! ### What they do to the cache -/

/-- The threads of a process, each with the answers that the directories give by then. -/
theorem foldl_syncTaskIn_fst (live : Tid → Bool) (cfg : AppConfig) (pid : Tid) (pkg : Str) (htr : Bool) :
    ∀ (tids : List TidReading) (acc : (ProcCache × Bool) × Placement), ∃ tids' : List TidReading,
      tids'.map listed = tids.map listed ∧ (∀ x ∈ tids', ∃ mk, x.env = envOf mk live) ∧
      (tids.foldl (syncTaskIn fs cfg pid pkg htr) acc).1 = tids'.foldl (syncTask cfg pid pkg htr) acc.1
  | [], acc => ⟨[], rfl, fun _ hx => absurd hx List.not_mem_nil, rfl⟩
  | x :: tids, acc => by
      obtain ⟨tids', hsame, henv, hfold⟩ := foldl_syncTaskIn_fst live cfg pid pkg htr tids
        (syncTaskIn fs cfg pid pkg htr acc x)
      exact ⟨{ x with env := envOf (answers fs acc.2.tree) live } :: tids', congrArg ((x.tid, x.comm) :: ·) hsame,
        List.forall_mem_cons.mpr ⟨⟨_, rfl⟩, henv⟩, hfold⟩

/-- One entry of the listing. -/
theorem syncEntryIn_fst (live : Tid → Bool) (cfg : AppConfig) (scanAll : Bool) (tracked : KeySet Tid)
    (acc : Rebuild × Placement) (r : ProcReading) : ∃ r', Answered live r r' ∧
      (syncEntryIn fs cfg scanAll tracked acc r).1 = syncEntry cfg scanAll tracked acc.1 r' := by
  cases ht : scanTarget cfg r with
  | none =>
      obtain ⟨r', hr'⟩ := exists_answered live r
      refine ⟨r', hr', ?_⟩
      unfold syncEntryIn syncEntry
      rw [hr'.pid, hr'.scanTarget_none ht, ht]
      cases r.pid with
      | none => rfl
      | some pid =>
          dsimp only
          split_ifs
          · rfl
          · rfl
  | some t =>
      obtain ⟨pid, pkg, hpid, hpkg, hi, rfl⟩ := scanTarget_eq_some.mp ht
      cases htids : r.tids with
      | none =>
          refine ⟨r, ⟨rfl, rfl, rfl, rfl, fun tids h => by rw [htids] at h; cases h⟩, ?_⟩
          unfold syncEntryIn syncEntry syncTargetIn syncTarget
          rw [hpid, ht, htids]
          dsimp only
          split_ifs
          · rfl
          · rfl
      | some tids =>
          obtain ⟨tids', hsame, henv, hthreads⟩ := foldl_syncTaskIn_fst fs live cfg pid pkg
            (cfg.pkgHasThreadRules pkg) tids ((acc.1.cache, false), acc.2)
          have ht' : scanTarget cfg { r with tids := some tids' } =
              some ⟨pid, pkg, cfg.pkgHasThreadRules pkg, some tids'⟩ :=
            scanTarget_eq_some.mpr ⟨pid, pkg, hpid, hpkg, hi, rfl⟩
          refine ⟨{ r with tids := some tids' }, ⟨rfl, rfl, rfl, ?_, fun _ h => Option.some.inj h ▸ henv⟩, ?_⟩
          · rw [htids, Option.map_some, Option.map_some, hsame]
          · unfold syncEntryIn syncEntry
            rw [ht', ht, hpid, htids]
            dsimp only
            unfold syncTargetIn syncTarget
            dsimp only
            rw [hthreads]
            split_ifs
            · rfl
            · rfl
            · rfl

theorem foldl_syncEntryIn_fst (live : Tid → Bool) (cfg : AppConfig) (scanAll : Bool) (tracked : KeySet Tid) :
    ∀ (entries : List ProcReading) (acc : Rebuild × Placement), ∃ entries',
      List.Forall₂ (Answered live) entries entries' ∧
      (entries.foldl (syncEntryIn fs cfg scanAll tracked) acc).1 =
        entries'.foldl (syncEntry cfg scanAll tracked) acc.1
  | [], acc => ⟨[], .nil, rfl⟩
  | r :: entries, acc => by
      obtain ⟨r', hr, hfirst⟩ := syncEntryIn_fst fs live cfg scanAll tracked acc r
      obtain ⟨entries', hsame, hfold⟩ := foldl_syncEntryIn_fst live cfg scanAll tracked entries
        (syncEntryIn fs cfg scanAll tracked acc r)
      refine ⟨r' :: entries', .cons hr hsame, ?_⟩
      rw [List.foldl_cons, List.foldl_cons, hfold, hfirst]

/-- On the cache and the state of proc mode, this is `proc_cache_sync` with the same snapshot, read
with the answers of some operating system. -/
theorem procCacheSyncIn_fst (live : Tid → Bool) (state : ProcState) (cfg : AppConfig) (snap : ProcSnapshot)
    (w : Placement) : ∃ snap' : ProcSnapshot, snap'.procs = snap.procs ∧ snap'.alive = snap.alive ∧
      List.Forall₂ (Answered live) (snap.dir.getD []) (snap'.dir.getD []) ∧
      (procCacheSyncIn fs state cfg snap w).1 = procCacheSync state cfg snap' := by
  obtain ⟨entries', hsame, hfold⟩ := foldl_syncEntryIn_fst fs live cfg (syncCount state snap.procs).2.scanAllProc
    (syncCount state snap.procs).2.trackedPids (snap.dir.getD [])
    (⟨(syncCount state snap.procs).2.cache.clear, KeySet.empty, 0⟩, w)
  refine ⟨{ snap with dir := some entries' }, rfl, rfl, hsame, ?_⟩
  unfold procCacheSyncIn procCacheSync rebuildIn rebuild
  dsimp only
  rw [hfold]
  split_ifs
  · rfl
  · rfl

/-! ### What a rebuild keeps -/

/-- The rule of rebuilds: what every thread that is read keeps, and what does not look at the mapped
packages, a rebuild keeps. -/
theorem rebuildIn_keeps {cfg : AppConfig} {I : ProcCache → Placement → Prop}
    (htask : ∀ pid pkg htr acc x, I acc.1.1 acc.2 →
      I (syncTaskIn fs cfg pid pkg htr acc x).1.1 (syncTaskIn fs cfg pid pkg htr acc x).2)
    (hpkgs : ∀ pc w pkgs, I pc w → I { pc with pkgs := pkgs } w) (scanAll : Bool) (tracked : KeySet Tid)
    (cache : ProcCache) (dir : Option (List ProcReading)) (w : Placement) (h : I cache.clear w) :
    I (rebuildIn fs cfg scanAll tracked cache dir w).1.cache (rebuildIn fs cfg scanAll tracked cache dir w).2 := by
  have htarget : ∀ t (acc : Rebuild × Placement), I acc.1.cache acc.2 →
      I (syncTargetIn fs cfg acc t).1.cache (syncTargetIn fs cfg acc t).2 := by
    intro t acc hacc
    unfold syncTargetIn
    cases t.tids with
    | none => exact hacc
    | some tids =>
        have hfold : I (tids.foldl (syncTaskIn fs cfg t.pid t.pkg t.htr) ((acc.1.cache, false), acc.2)).1.1
            (tids.foldl (syncTaskIn fs cfg t.pid t.pkg t.htr) ((acc.1.cache, false), acc.2)).2 :=
          List.foldlRecOn (motive := fun acc : (ProcCache × Bool) × Placement => I acc.1.1 acc.2) tids _ hacc
            fun acc hacc x _ => htask t.pid t.pkg t.htr acc x hacc
        dsimp only
        split_ifs
        · exact hpkgs _ _ _ hfold
        · exact hfold
  refine List.foldlRecOn (motive := fun acc : Rebuild × Placement => I acc.1.cache acc.2) (dir.getD []) _ h
    fun acc hacc r _ => ?_
  unfold syncEntryIn
  cases r.pid with
  | none => exact hacc
  | some pid =>
      dsimp only
      split_ifs
      · exact hacc
      · cases scanTarget cfg r with
        | none => exact hacc
        | some t => exact htarget t _ hacc

end

/-! ### One thread of a rebuild -/

section

variable (fs : FsAnswers) {cfg : AppConfig} {pid : Tid} {pkg : Str} {htr : Bool}
  {acc : (ProcCache × Bool) × Placement} {x : TidReading} {u : Tid}

theorem syncTaskIn_lookup_ne (h : x.tid ≠ u) :
    (syncTaskIn fs cfg pid pkg htr acc x).1.1.tasks.lookup u = acc.1.1.tasks.lookup u :=
  taskApply_lookup_ne (taskApply_case ..) h.symm

/-- A thread that no rule binds is left alone. -/
theorem syncTaskIn_frame
    (h : x.tid = u → binding cfg cfg.topo pkg (threadName htr true (scanName htr x.comm)) = none) :
    (syncTaskIn fs cfg pid pkg htr acc x).1.1.tasks.lookup u = acc.1.1.tasks.lookup u := by
  by_cases hu : x.tid = u
  · have hnone : threadAffinity (answers fs acc.2.tree) pkg (threadName htr true (scanName htr x.comm)) cfg cfg.topo =
        none := by
      have hb := threadAffinity_binding (answers fs acc.2.tree) pkg (threadName htr true (scanName htr x.comm)) cfg
        cfg.topo
      rw [h hu] at hb
      exact Option.map_eq_none_iff.mp hb
    unfold syncTaskIn taskApply
    simp only [hnone]
  · exact syncTaskIn_lookup_ne fs hu

/-- The thread is cached so. -/
def Noted (pid : Tid) (cpus : CpuSet) (isThreadRule : Bool) (u : Tid) (pc : ProcCache) : Prop :=
  ∃ e, pc.tasks.lookup u = some e ∧ e.pid = pid ∧ e.cpus = cpus ∧ e.isThreadRule = isThreadRule

/-- A thread that the rules bind is cached so, unless it has an entry of the other kind. -/
theorem noted_syncTaskIn {cpus : CpuSet} {isThreadRule : Bool}
    (hentry : ∀ e, acc.1.1.tasks.lookup x.tid = some e → e.isThreadRule = isThreadRule)
    (hb : binding cfg cfg.topo pkg (threadName htr true (scanName htr x.comm)) = some (cpus, isThreadRule)) :
    Noted pid cpus isThreadRule x.tid (syncTaskIn fs cfg pid pkg htr acc x).1.1 := by
  have hanswer := threadAffinity_binding (answers fs acc.2.tree) pkg (threadName htr true (scanName htr x.comm)) cfg
    cfg.topo
  rw [hb] at hanswer
  have hcase := taskApply_case (answers fs acc.2.tree) acc.1.1 x.tid pid pkg (scanName htr x.comm) htr cfg true
    noApply ()
  unfold syncTaskIn
  dsimp only
  generalize acc.1.1.taskApply (answers fs acc.2.tree) x.tid pid pkg (scanName htr x.comm) htr cfg true noApply () =
    out at hcase ⊢
  cases hcase with
  | unruled hr =>
      rw [hr] at hanswer
      cases hanswer
  | @kept r hr hk =>
      -- an entry that stays is a thread rule's, and the answer is another's
      obtain ⟨e, he, hold, hnew⟩ := keeps_mem hk
      rw [hr] at hanswer
      have hflag : r.isThreadRule = isThreadRule := congrArg Prod.snd (Option.some.inj hanswer)
      rw [← hentry e he, hold, hnew] at hflag
      cases hflag
  | gone _ _ hd => exact absurd hd Bool.false_ne_true
  | @bound r hr =>
      rw [hr] at hanswer
      obtain ⟨hc, hflag⟩ := Prod.mk.inj (Option.some.inj hanswer)
      exact ⟨entryOf pid r, AList.lookup_insert _, rfl, hc, hflag⟩

/-- The directories of the rules and of the entries are there afterwards. -/
theorem ready_syncTaskIn (hm : cfg.topo.memsStr ≠ []) (hrules : RulesReady cfg.topo cfg.rules acc.2.tree)
    (hready : Ready cfg.topo acc.1.1 acc.2) :
    RulesReady cfg.topo cfg.rules (syncTaskIn fs cfg pid pkg htr acc x).2.tree ∧
      Ready cfg.topo (syncTaskIn fs cfg pid pkg htr acc x).1.1 (syncTaskIn fs cfg pid pkg htr acc x).2 := by
  have hdirs : ∀ dir cpus, HasDir acc.2.tree dir cpus →
      HasDir (syncTaskIn fs cfg pid pkg htr acc x).2.tree dir cpus := fun dir cpus h =>
    h.created fs pkg (threadName htr true (scanName htr x.comm))
  refine ⟨fun r hr hdir => (hrules r hr hdir).imp_right (hdirs _ _), ?_⟩
  have hold : ∀ e, EntryReady cfg.topo acc.2.tree e →
      EntryReady cfg.topo (syncTaskIn fs cfg pid pkg htr acc x).2.tree e := fun e h hdir =>
    (h hdir).imp_right (hdirs _ _)
  have hnew : ∀ r, threadAffinity (answers fs acc.2.tree) pkg (threadName htr true (scanName htr x.comm)) cfg cfg.topo =
      some r → EntryReady cfg.topo (syncTaskIn fs cfg pid pkg htr acc x).2.tree (entryOf pid r) := fun r hr hdir =>
    hasDir_threadAffinity hm hrules hr hdir
  intro v e he
  have hcase := taskApply_case (answers fs acc.2.tree) acc.1.1 x.tid pid pkg (scanName htr x.comm) htr cfg true
    noApply ()
  have he : (acc.1.1.taskApply (answers fs acc.2.tree) x.tid pid pkg (scanName htr x.comm) htr cfg true noApply
    ()).2.1.tasks.lookup v = some e := he
  generalize acc.1.1.taskApply (answers fs acc.2.tree) x.tid pid pkg (scanName htr x.comm) htr cfg true noApply () =
    out at hcase he
  cases hcase with
  | unruled => exact hold e (hready v e he)
  | kept => exact hold e (hready v e he)
  | gone _ _ hd => exact absurd hd Bool.false_ne_true
  | @bound r hr =>
      have he : ((acc.1.1.tasks.erase x.tid).insert x.tid (entryOf pid r)).lookup v = some e := he
      rw [KeyMap.lookup_insert] at he
      split_ifs at he with hv
      · obtain rfl := Option.some.inj he
        exact hnew r hr
      · rw [KeyMap.lookup_erase, if_neg hv] at he
        exact hold e (hready v e he)

end

/-! ### All threads of the processes that are looked at -/

section

variable (fs : FsAnswers) {cfg : AppConfig} {u pid : Tid} {cpus : CpuSet} {isThreadRule : Bool} {t : ScanTarget}

/-- The entry of the thread is of this kind, if it has one. -/
def OfKind (isThreadRule : Bool) (u : Tid) (pc : ProcCache) : Prop :=
  ∀ e, pc.tasks.lookup u = some e → e.isThreadRule = isThreadRule

theorem Noted.ofKind {pc : ProcCache} (h : Noted pid cpus isThreadRule u pc) : OfKind isThreadRule u pc := by
  obtain ⟨e, he, -, -, hflag⟩ := h
  intro e' he'
  rw [he] at he'
  exact Option.some.inj he' ▸ hflag

/-- The cache after a process, apart from the mapped packages. -/
theorem syncTargetIn_tasks (acc : Rebuild × Placement) {tids : List TidReading} (htids : t.tids = some tids) :
    (syncTargetIn fs cfg acc t).1.cache.tasks =
      (tids.foldl (syncTaskIn fs cfg t.pid t.pkg t.htr) ((acc.1.cache, false), acc.2)).1.1.tasks := by
  unfold syncTargetIn
  rw [htids]
  dsimp only
  split_ifs
  · rfl
  · rfl

theorem noted_syncTargetIn (hb : t.Binds cfg u pid cpus isThreadRule) (acc : Rebuild × Placement)
    (h : OfKind isThreadRule u acc.1.cache) :
    OfKind isThreadRule u (syncTargetIn fs cfg acc t).1.cache ∧
      (Noted pid cpus isThreadRule u acc.1.cache ∨ t.Reads u →
        Noted pid cpus isThreadRule u (syncTargetIn fs cfg acc t).1.cache) := by
  cases htids : t.tids with
  | none =>
      have hsame : syncTargetIn fs cfg acc t = acc := by
        unfold syncTargetIn
        rw [htids]
      rw [hsame]
      refine ⟨h, fun hs => hs.resolve_right ?_⟩
      rintro ⟨tids, htids', -⟩
      rw [htids] at htids'
      cases htids'
  | some tids =>
      have hown : ∀ x ∈ tids, x.tid = u → ∀ acc : (ProcCache × Bool) × Placement, OfKind isThreadRule u acc.1.1 →
          Noted pid cpus isThreadRule u (syncTaskIn fs cfg t.pid t.pkg t.htr acc x).1.1 := by
        intro x hx hu acc hacc
        obtain ⟨hpid, hbind⟩ := hb tids htids x hx hu
        subst hu
        rw [← hpid]
        exact noted_syncTaskIn fs hacc hbind
      have hkind : ∀ x ∈ tids, ∀ acc : (ProcCache × Bool) × Placement, OfKind isThreadRule u acc.1.1 →
          OfKind isThreadRule u (syncTaskIn fs cfg t.pid t.pkg t.htr acc x).1.1 := by
        intro x hx acc hacc
        by_cases hu : x.tid = u
        · exact (hown x hx hu acc hacc).ofKind
        · intro e he
          rw [syncTaskIn_lookup_ne fs hu] at he
          exact hacc e he
      have hkeep : ∀ x ∈ tids, ¬ x.tid = u → ∀ acc : (ProcCache × Bool) × Placement, OfKind isThreadRule u acc.1.1 →
          Noted pid cpus isThreadRule u acc.1.1 →
          Noted pid cpus isThreadRule u (syncTaskIn fs cfg t.pid t.pkg t.htr acc x).1.1 := by
        rintro x - hu acc - ⟨e, he, hrest⟩
        exact ⟨e, (syncTaskIn_lookup_ne fs hu).trans he, hrest⟩
      have htasks : (syncTargetIn fs cfg acc t).1.cache.tasks = _ := syncTargetIn_tasks fs acc htids
      have hkinds : OfKind isThreadRule u
          (tids.foldl (syncTaskIn fs cfg t.pid t.pkg t.htr) ((acc.1.cache, false), acc.2)).1.1 :=
        List.foldlRecOn (motive := fun acc : (ProcCache × Bool) × Placement => OfKind isThreadRule u acc.1.1) tids _ h
          fun acc hacc x hx => hkind x hx acc hacc
      refine ⟨?_, fun hs => ?_⟩
      · unfold OfKind
        rw [htasks]
        exact hkinds
      · unfold Noted
        rw [htasks]
        refine (Sweep.foldl_reach (I := fun acc : (ProcCache × Bool) × Placement => OfKind isThreadRule u acc.1.1)
          (P := fun acc => Noted pid cpus isThreadRule u acc.1.1) (fun x : TidReading => x.tid = u) tids
          ((acc.1.cache, false), acc.2) hkind hkeep hown h (hs.imp_right fun hr => ?_)).2
        obtain ⟨tids', htids', hr⟩ := hr
        rw [htids] at htids'
        exact Option.some.inj htids' ▸ hr

/-- Threads that no rule binds are left alone. -/
theorem syncTargetIn_frame (h : ∀ tids, t.tids = some tids → ∀ x ∈ tids, x.tid = u →
      binding cfg cfg.topo t.pkg (t.threadName x) = none) (acc : Rebuild × Placement) :
    (syncTargetIn fs cfg acc t).1.cache.tasks.lookup u = acc.1.cache.tasks.lookup u := by
  cases htids : t.tids with
  | none =>
      unfold syncTargetIn
      rw [htids]
  | some tids =>
      rw [syncTargetIn_tasks fs acc htids]
      exact Sweep.foldl_frame (fun acc : (ProcCache × Bool) × Placement => acc.1.1.tasks.lookup u) tids
        ((acc.1.cache, false), acc.2) fun x hx acc => syncTaskIn_frame fs (h tids htids x hx)

/-- The process of the entry, when the rebuild looks at it. -/
def Looked (cfg : AppConfig) (scanAll : Bool) (tracked : KeySet Tid) (r : ProcReading) (t : ScanTarget) : Prop :=
  scanTarget cfg r = some t ∧ (scanAll = true ∨ t.pid ∈ tracked)

/-- An entry is counted at most, or its process is synchronised. -/
theorem syncEntryIn_case (scanAll : Bool) (tracked : KeySet Tid) (acc : Rebuild × Placement) (r : ProcReading) :
    ((∀ t, ¬ Looked cfg scanAll tracked r t) ∧
        (syncEntryIn fs cfg scanAll tracked acc r).1.cache = acc.1.cache) ∨
      ∃ t acc', Looked cfg scanAll tracked r t ∧ acc'.1.cache = acc.1.cache ∧
        syncEntryIn fs cfg scanAll tracked acc r = syncTargetIn fs cfg acc' t := by
  unfold syncEntryIn Looked
  cases ht : scanTarget cfg r with
  | none =>
      refine .inl ⟨fun t h => Option.some_ne_none t h.1.symm, ?_⟩
      cases r.pid with
      | none => rfl
      | some pid =>
          dsimp only
          split_ifs
          · rfl
          · rfl
  | some t =>
      obtain ⟨pid, pkg, hpid, -, -, rfl⟩ := scanTarget_eq_some.mp ht
      rw [hpid]
      dsimp only
      split_ifs with hskip
      · refine .inl ⟨fun t' h => ?_, rfl⟩
        obtain rfl := Option.some.inj h.1
        simp only [Bool.and_eq_true, Bool.not_eq_true', decide_eq_false_iff_not] at hskip
        rcases h.2 with hall | htr
        · rw [hskip.1] at hall
          cases hall
        · exact hskip.2 htr
      · refine .inr ⟨_, ({ acc.1 with currentTotal := acc.1.currentTotal + 1 }, acc.2), ⟨rfl, ?_⟩, rfl, rfl⟩
        by_contra hno
        rw [not_or, Bool.not_eq_true] at hno
        exact hskip (by rw [hno.1, decide_eq_false hno.2]; rfl)

/-- A rebuild caches the thread as its process's readings say. -/
theorem noted_rebuildIn {scanAll : Bool} {tracked : KeySet Tid} {entries : List ProcReading}
    (hb : ∀ r ∈ entries, ∀ t, Looked cfg scanAll tracked r t → t.Binds cfg u pid cpus isThreadRule)
    (hread : ∃ r ∈ entries, ∃ t, Looked cfg scanAll tracked r t ∧ t.Reads u) (cache : ProcCache) (w : Placement) :
    Noted pid cpus isThreadRule u (rebuildIn fs cfg scanAll tracked cache (some entries) w).1.cache := by
  have hstep : ∀ r ∈ entries, ∀ acc : Rebuild × Placement, OfKind isThreadRule u acc.1.cache →
      OfKind isThreadRule u (syncEntryIn fs cfg scanAll tracked acc r).1.cache := by
    intro r hr acc hacc
    rcases syncEntryIn_case fs scanAll tracked acc r with ⟨-, he⟩ | ⟨t, acc', ht, hcache, he⟩
    · rw [he]
      exact hacc
    · rw [he]
      exact (noted_syncTargetIn fs (hb r hr t ht) acc' (hcache ▸ hacc)).1
  refine (Sweep.foldl_reach (I := fun acc : Rebuild × Placement => OfKind isThreadRule u acc.1.cache)
    (P := fun acc => Noted pid cpus isThreadRule u acc.1.cache)
    (fun r => ∃ t, Looked cfg scanAll tracked r t ∧ t.Reads u) entries _ hstep (fun r hr _ acc hacc hp => ?_)
    (fun r hr hw acc hacc => ?_) (fun e he => by cases he) (.inr hread)).2
  · rcases syncEntryIn_case fs scanAll tracked acc r with ⟨-, he⟩ | ⟨t, acc', ht, hcache, he⟩
    · rw [he]
      exact hp
    · rw [he]
      exact (noted_syncTargetIn fs (hb r hr t ht) acc' (hcache ▸ hacc)).2 (.inl (hcache ▸ hp))
  · obtain ⟨t, ht, hreads⟩ := hw
    rcases syncEntryIn_case fs scanAll tracked acc r with ⟨hno, -⟩ | ⟨t', acc', ht', hcache, he⟩
    · exact absurd ht (hno t)
    · obtain rfl : t = t' := Option.some.inj (ht.1.symm.trans ht'.1)
      rw [he]
      exact (noted_syncTargetIn fs (hb r hr t ht) acc' (hcache ▸ hacc)).2 (.inr hreads)

/-- A thread that no rule binds has no entry after a rebuild. -/
theorem rebuildIn_frame {scanAll : Bool} {tracked : KeySet Tid} {entries : List ProcReading}
    (h : ∀ r ∈ entries, ∀ t, Looked cfg scanAll tracked r t → ∀ tids, t.tids = some tids → ∀ x ∈ tids, x.tid = u →
      binding cfg cfg.topo t.pkg (t.threadName x) = none) (cache : ProcCache) (w : Placement) :
    u ∉ (rebuildIn fs cfg scanAll tracked cache (some entries) w).1.cache.tasks := by
  have hnone : (rebuildIn fs cfg scanAll tracked cache (some entries) w).1.cache.tasks.lookup u = none :=
    Sweep.foldl_frame (fun acc : Rebuild × Placement => acc.1.cache.tasks.lookup u) entries
      (⟨cache.clear, KeySet.empty, 0⟩, w) fun r hr acc => by
        rcases syncEntryIn_case fs scanAll tracked acc r with ⟨-, he⟩ | ⟨t, acc', ht, hcache, he⟩
        · rw [he]
        · rw [he, syncTargetIn_frame fs (h r hr t ht), hcache]
  exact AList.lookup_eq_none.mp hnone

end

/-! ### A correction -/

section

variable {allow : Tid → Str → Bool} {topo : CpuTopology} {pc : ProcCache} {w : Placement} {u pid : Tid}
  {cpus : CpuSet} {isThreadRule : Bool}

/-- A correction keeps the entries of the live threads. -/
theorem affinitySyncIn_tasks (hlive : u ∈ w.threads) :
    (w.affinitySyncIn allow pc topo).1.2.tasks.lookup u = pc.tasks.lookup u := by
  have hno : u ∉ (w.affinitySyncIn allow pc topo).1.1 := fun h => ((mem_reported allow topo pc w u).mp h).2 hlive
  show ((w.affinitySyncIn allow pc topo).1.1.foldl taskDel pc).tasks.lookup u = _
  rw [foldl_taskDel_tasks, KeyMap.lookup_eraseAll, if_neg hno]

/-- No entry appears in a correction. -/
theorem not_mem_affinitySyncIn (h : u ∉ pc.tasks ∨ u ∉ w.threads) :
    u ∉ (w.affinitySyncIn allow pc topo).1.2.tasks := by
  show u ∉ ((w.affinitySyncIn allow pc topo).1.1.foldl taskDel pc).tasks
  rw [foldl_taskDel_tasks, KeyMap.mem_eraseAll, mem_reported]
  rintro ⟨hin, hno⟩
  rcases h with h | h
  · exact h hin
  · exact hno ⟨hin, h⟩

/-- A correction does not touch a thread that is not cached, or that has exited. -/
theorem lookup_affinitySyncIn (h : u ∉ pc.tasks ∨ u ∉ w.threads) :
    (w.affinitySyncIn allow pc topo).2.2.threads.lookup u = w.threads.lookup u := by
  rw [affinitySyncIn_lookup]
  cases he : pc.tasks.lookup u with
  | none => rfl
  | some e =>
      have hdead : w.threads.lookup u = none :=
        AList.lookup_eq_none.mpr (h.resolve_left fun h => h (KeyMap.mem_of_lookup he))
      rw [hdead]
      rfl

/-- A live thread whose directory is there, or that goes to the base directory, has the CPUs of its
entry after a correction. -/
theorem stands_affinitySyncIn (hbase : BaseReady topo w.tree) (hready : Ready topo pc w)
    (h : Noted pid cpus isThreadRule u pc) (hlive : u ∈ w.threads) (hne : cpus ≠ CpuSet.new) :
    Stands allow topo pid cpus isThreadRule u (w.affinitySyncIn allow pc topo).1.2
      (w.affinitySyncIn allow pc topo).2.2 := by
  obtain ⟨e, he, hpid, hc, hflag⟩ := h
  obtain ⟨x, hx⟩ := Option.isSome_iff_exists.mp (AList.lookup_isSome.mpr hlive)
  refine ⟨e, settled allow topo w.tree u e.cpusetDir e.cpus x, (affinitySyncIn_tasks hlive).trans he, hpid, hc, hflag,
    ?_, ?_⟩
  · rw [affinitySyncIn_lookup, he, hx]
    rfl
  · rintro ⟨hallow, hsub⟩
    by_cases hdir : e.cpusetDir = []
    · rw [hdir, hc]
      exact hbase.settled_mask (hallow []) hne hsub x
    · obtain ⟨hon, hmade⟩ := hready u e he hdir
      exact (hmade.settled_mask hon (hallow e.cpusetDir) x).trans hc

end

end Placement

/-! ### Runs -/

open Placement

/-- The daemon in proc mode and what it acts on. -/
structure Polled where
  cfg : AppConfig
  proc : ProcState
  w : Placement

/-- What can happen: the daemon loads its file again, which the next round may have lost sight of when
it synchronises; it merges the cache file again, having allocated to new applications; it
synchronises its cache or corrects; another program starts a thread, moves one or changes its mask; a
thread exits. -/
inductive PolledAction where
  | reload (fs : FsAnswers) (data : Option Str) (mtime : Option ℕ) (cache : Option Str) (noticed : Bool)
  | allocate (cache : Option Str)
  | sync (fs : FsAnswers) (snap : ProcSnapshot)
  | affinity (elapsed : Bool)
  | foreign (tid : Tid) (x : Standing)
  | exit (tid : Tid)

namespace Polled

variable (parse : Str → Option JsonValue) (allow : Tid → Str → Bool)

/-- The configuration, the cache and the placement, as in eBPF mode. -/
def placed (s : Polled) : Placed := ⟨s.cfg, s.proc.cache, ∅, s.w⟩

/-- `hot_reload`, and what a round makes of `config_changed`. -/
def reload (s : Polled) (fs : FsAnswers) (data : Option Str) (mtime : Option ℕ) (cache : Option Str)
    (noticed : Bool) : Polled :=
  let p := s.placed.reload parse fs data mtime cache
  { cfg := p.cfg, proc := { s.proc with scanAllProc := s.proc.scanAllProc || noticed }, w := p.w }

/-- One step. -/
def step (s : Polled) : PolledAction → Option Polled
  | .reload fs data mtime cache noticed => some (s.reload parse fs data mtime cache noticed)
  | .allocate cache => some { s with cfg := s.cfg.mergeCache parse cache }
  | .sync fs snap =>
      let out := procCacheSyncIn fs s.proc s.cfg snap s.w
      some { s with proc := out.1.2, w := out.2 }
  | .affinity elapsed =>
      if s.proc.forceAffinity || elapsed then
        let out := s.w.affinitySyncIn allow s.proc.cache s.cfg.topo
        some { s with proc := { s.proc with cache := out.1.2, forceAffinity := false }, w := out.2.2 }
      else some s
  | .foreign tid x => some { s with w := { s.w with threads := s.w.threads.insert tid x } }
  | .exit tid => some { s with w := { s.w with threads := s.w.threads.erase tid } }

/-- Proc mode begins where the daemon starts, or where the channel of eBPF mode is disconnected, with
what is cached by then. -/
def Init (s : Polled) : Prop :=
  s.proc = { ProcState.new with cache := s.proc.cache } ∧ ∃ applied,
    Runs.Reachable (Placed.step parse allow) (fun _ _ => True) (Placed.Init parse) { s.placed with applied := applied }

/-- The step is another program's. -/
def Outside : PolledAction → Prop
  | .foreign .. => True
  | .exit .. => True
  | _ => False

variable {parse allow} {s s' : Polled}

/-- A rebuild keeps the directories that rules and entries name. -/
theorem stocked_sync (h : s.placed.Stocked) {fs : FsAnswers} {snap : ProcSnapshot} :
    let out := procCacheSyncIn fs s.proc s.cfg snap s.w
    Placed.Stocked ⟨s.cfg, out.1.2.cache, ∅, out.2⟩ := by
  have hcache : (syncCount s.proc snap.procs).2.cache = s.proc.cache := by
    unfold syncCount
    cases snap.procs with
    | none => rfl
    | some cur =>
        dsimp only
        split_ifs <;> rfl
  unfold procCacheSyncIn
  dsimp only
  split_ifs
  · refine ⟨h.mems, h.rules, ?_⟩
    dsimp only
    rw [hcache]
    exact h.ready
  · obtain ⟨hrules, hready⟩ := @rebuildIn_keeps fs s.cfg
      (fun pc w => RulesReady s.cfg.topo s.cfg.rules w.tree ∧ Ready s.cfg.topo pc w)
      (fun _ _ _ _ _ hacc => ready_syncTaskIn fs h.mems hacc.1 hacc.2) (fun _ _ _ hacc => hacc)
      (syncCount s.proc snap.procs).2.scanAllProc (syncCount s.proc snap.procs).2.trackedPids
      (syncCount s.proc snap.procs).2.cache snap.dir s.w ⟨h.rules, fun u e he => by cases he⟩
    exact ⟨h.mems, hrules, hready⟩

theorem stocked_init (h : Init parse allow s) : s.placed.Stocked := by
  obtain ⟨-, applied, hr⟩ := h
  have hs : Placed.Stocked { s.placed with applied := applied } :=
    hr.invariant (fun _ => Placed.stocked_init) fun _ _ _ h _ hstep => h.step hstep
  exact ⟨hs.mems, hs.rules, hs.ready⟩

theorem stocked_step (h : s.placed.Stocked) {a : PolledAction} (hs : s.step parse allow a = some s') :
    s'.placed.Stocked := by
  cases a with
  | reload fs data mtime cache noticed =>
      obtain rfl := Option.some.inj hs
      have hr : Placed.Stocked (s.placed.reload parse fs data mtime cache) := h.reload fs data mtime cache
      exact ⟨hr.mems, hr.rules, hr.ready⟩
  | allocate cache =>
      obtain rfl := Option.some.inj hs
      exact ⟨h.mems, h.rules.mergeCache parse cache, h.ready⟩
  | sync fs snap =>
      obtain rfl := Option.some.inj hs
      exact stocked_sync h
  | affinity elapsed =>
      unfold step at hs
      dsimp only at hs
      split_ifs at hs
      · obtain rfl := Option.some.inj hs
        have hall : AllConfined allow s.cfg _ _ :=
          allConfined_correctAffinityIn allow s.proc.cache (∅, s.w) h.rules h.ready
        exact ⟨h.mems, hall.rules, hall.ready⟩
      · obtain rfl := Option.some.inj hs
        exact h
  | foreign tid x =>
      obtain rfl := Option.some.inj hs
      exact ⟨h.mems, h.rules, h.ready⟩
  | exit tid =>
      obtain rfl := Option.some.inj hs
      exact ⟨h.mems, h.rules, h.ready⟩

/-- What a call that rebuilds the cache leaves. -/
theorem procCacheSyncIn_rebuild {fs : FsAnswers} {state : ProcState} {cfg : AppConfig} {snap : ProcSnapshot}
    {w : Placement} (h : (procCacheSyncIn fs state cfg snap w).1.1 = true) :
    (procCacheSyncIn fs state cfg snap w).1.2.cache =
        (rebuildIn fs cfg state.scanAllProc state.trackedPids state.cache snap.dir w).1.cache ∧
      (procCacheSyncIn fs state cfg snap w).1.2.forceAffinity = true ∧
      (procCacheSyncIn fs state cfg snap w).2 =
        (rebuildIn fs cfg state.scanAllProc state.trackedPids state.cache snap.dir w).2 := by
  have hcount : (syncCount state snap.procs).2.scanAllProc = state.scanAllProc ∧
      (syncCount state snap.procs).2.trackedPids = state.trackedPids := by
    unfold syncCount
    cases snap.procs with
    | none => exact ⟨rfl, rfl⟩
    | some cur =>
        dsimp only
        split_ifs <;> exact ⟨rfl, rfl⟩
  unfold procCacheSyncIn at h ⊢
  dsimp only at h ⊢
  split_ifs at h ⊢
  rw [hcount.1, hcount.2]
  exact ⟨rfl, rfl, rfl⟩

/-- Other programs move threads only. -/
theorem outside_step {a : PolledAction} (ho : Outside a) (hs : s.step parse allow a = some s') :
    s'.cfg = s.cfg ∧ s'.proc = s.proc ∧ s'.w.tree = s.w.tree := by
  cases a with
  | reload fs data mtime cache noticed => exact ho.elim
  | allocate cache => exact ho.elim
  | sync fs snap => exact ho.elim
  | affinity elapsed => exact ho.elim
  | foreign tid x =>
      obtain rfl := Option.some.inj hs
      exact ⟨rfl, rfl, rfl⟩
  | exit tid =>
      obtain rfl := Option.some.inj hs
      exact ⟨rfl, rfl, rfl⟩

theorem outside_steps {s₁ s₂ : Polled} (h : Runs.Steps (step parse allow) (fun _ a => Outside a) s₁ s₂) :
    s₂.cfg = s₁.cfg ∧ s₂.proc = s₁.proc ∧ s₂.w.tree = s₁.w.tree :=
  h.invariant (I := fun x => x.cfg = s₁.cfg ∧ x.proc = s₁.proc ∧ x.w.tree = s₁.w.tree)
    (fun x a x' hx ho hstep => by
      obtain ⟨hcfg, hproc, htree⟩ := outside_step ho hstep
      exact ⟨hcfg.trans hx.1, hproc.trans hx.2.1, htree.trans hx.2.2⟩)
    ⟨rfl, rfl, rfl⟩

/-- What a correction finds after a rebuild, wherever other programs have moved threads in between. -/
structure Rebuilt (s : Polled) (fs : FsAnswers) (entries : List ProcReading) (s₂ : Polled) : Prop where
  cfg : s₂.cfg = s.cfg
  cache : s₂.proc.cache =
    (rebuildIn fs s.cfg s.proc.scanAllProc s.proc.trackedPids s.proc.cache (some entries) s.w).1.cache
  due : s₂.proc.forceAffinity = true
  base : BaseReady s.cfg.topo s₂.w.tree
  ready : Ready s.cfg.topo s₂.proc.cache s₂.w

theorem rebuilt_outside {s₁ s₂ : Polled} {fs : FsAnswers} {snap : ProcSnapshot} {entries : List ProcReading}
    (hstocked : s.placed.Stocked) (hdir : snap.dir = some entries) (hbase : BaseReady s.cfg.topo s.w.tree)
    (hrebuild : (procCacheSyncIn fs s.proc s.cfg snap s.w).1.1 = true)
    (h₁ : s.step parse allow (.sync fs snap) = some s₁)
    (hrun : Runs.Steps (step parse allow) (fun _ a => Outside a) s₁ s₂) : s.Rebuilt fs entries s₂ := by
  have hfirst : s₁.placed.Stocked := stocked_step hstocked h₁
  obtain ⟨hcache, hforce, hw⟩ := procCacheSyncIn_rebuild hrebuild
  obtain rfl := Option.some.inj h₁
  obtain ⟨hcfg, hproc, htree⟩ := outside_steps hrun
  dsimp only at hcfg hproc htree
  rw [hdir] at hcache hw
  refine ⟨hcfg, (congrArg ProcState.cache hproc).trans hcache, (congrArg ProcState.forceAffinity hproc).trans hforce,
    ?_, ?_⟩
  · rw [htree, hw]
    exact @rebuildIn_keeps fs s.cfg (fun _ w => BaseReady s.cfg.topo w.tree)
      (fun _ pkg htr _ x hacc => hacc.created fs pkg (threadName htr true (scanName htr x.comm)))
      (fun _ _ _ hacc => hacc) _ _ _ _ _ hbase
  · intro u e he
    rw [hproc] at he
    rw [htree]
    exact hfirst.ready u e he

/-- A correction that is due is made. -/
theorem affinity_due {s₂ s₃ : Polled} {elapsed : Bool} (hdue : s₂.proc.forceAffinity = true)
    (h₃ : s₂.step parse allow (.affinity elapsed) = some s₃) :
    s₃.proc.cache = (s₂.w.affinitySyncIn allow s₂.proc.cache s₂.cfg.topo).1.2 ∧
      s₃.w = (s₂.w.affinitySyncIn allow s₂.proc.cache s₂.cfg.topo).2.2 := by
  unfold step at h₃
  dsimp only at h₃
  rw [hdue, Bool.true_or, if_pos rfl] at h₃
  obtain rfl := Option.some.inj h₃
  exact ⟨rfl, rfl⟩

/-- **A rebuild of proc mode puts the rules in force**, by the correction that it asks for.  On a
device with cpusets, the live threads of the configured processes that the rebuild looks at end
cached with their binding, and with its CPUs, wherever other programs put them in between, if the
CPUs are present and the kernel lets the threads be moved.  A thread that is not bound, or that has
exited in between, is not cached afterwards, and the correction does not touch it. -/
theorem rebuild_enforces (parse : Str → Option JsonValue) (allow : Tid → Str → Bool) (s s₁ s₂ s₃ : Polled)
    (fs : FsAnswers) (snap : ProcSnapshot) (entries : List ProcReading) (elapsed : Bool)
    (hs : Runs.Reachable (step parse allow) (fun _ _ => True) (Init parse allow) s) (hdir : snap.dir = some entries)
    (hsnap : Snapshot entries) (hbase : BaseReady s.cfg.topo s.w.tree)
    (hrebuild : (procCacheSyncIn fs s.proc s.cfg snap s.w).1.1 = true)
    (h₁ : s.step parse allow (.sync fs snap) = some s₁)
    (hrun : Runs.Steps (step parse allow) (fun _ a => Outside a) s₁ s₂)
    (h₃ : s₂.step parse allow (.affinity elapsed) = some s₃) :
    (∀ q p tids x cpus isThreadRule, Interested s.cfg entries q p tids →
      (s.proc.scanAllProc = true ∨ q ∈ s.proc.trackedPids) → x ∈ tids → x.tid ∈ s₂.w.threads →
      binding s.cfg s.cfg.topo p (if s.cfg.pkgHasThreadRules p then (tidComm x.comm).getD [] else []) =
        some (cpus, isThreadRule) →
      Stands allow s.cfg.topo q cpus isThreadRule x.tid s₃.proc.cache s₃.w) ∧
    ∀ u, (u ∉ s₂.w.threads ∨ ∀ q p tids x, Interested s.cfg entries q p tids →
        (s.proc.scanAllProc = true ∨ q ∈ s.proc.trackedPids) → x ∈ tids → x.tid = u →
        binding s.cfg s.cfg.topo p (if s.cfg.pkgHasThreadRules p then (tidComm x.comm).getD [] else []) = none) →
      u ∉ s₃.proc.cache.tasks ∧ s₃.w.threads.lookup u = s₂.w.threads.lookup u := by
  have hstocked : s.placed.Stocked := hs.invariant (fun _ => stocked_init)
    fun _ _ _ h _ hstep => stocked_step h hstep
  have hrebuilt : s.Rebuilt fs entries s₂ := rebuilt_outside hstocked hdir hbase hrebuild h₁ hrun
  -- the rebuild asks for the correction
  obtain ⟨hcache, hw⟩ := affinity_due hrebuilt.due h₃
  rw [hrebuilt.cfg] at hcache hw
  constructor
  · intro q p tids x cpus isThreadRule hi hlook hx hlive hb
    obtain ⟨r, hr, hpid, hpkg, hint, htids⟩ := hi
    have ht : scanTarget s.cfg r = some ⟨q, p, s.cfg.pkgHasThreadRules p, some tids⟩ :=
      scanTarget_eq_some.mpr ⟨q, p, hpid, hpkg, hint, by rw [htids]⟩
    have hmem := List.mem_filterMap.mpr ⟨r, hr, ht⟩
    -- a snapshot has one reading of the thread
    have hbinds : ∀ r ∈ entries, ∀ t, Looked s.cfg s.proc.scanAllProc s.proc.trackedPids r t →
        t.Binds s.cfg x.tid q cpus isThreadRule := by
      intro r' hr' t ht' tids' htids' x' hx' hu
      obtain ⟨rfl, rfl⟩ := hsnap.reading_unique (List.mem_filterMap.mpr ⟨r', hr', ht'.1⟩) hmem htids' rfl hx' hx hu
      exact ⟨rfl, (congrArg _ (ScanTarget.threadName_eq x' rfl)).trans hb⟩
    have hnoted := noted_rebuildIn fs hbinds ⟨r, hr, _, ⟨ht, hlook⟩, tids, rfl, x, hx, rfl⟩ s.proc.cache s.w
    rw [← hrebuilt.cache] at hnoted
    rw [hcache, hw]
    exact stands_affinitySyncIn hrebuilt.base hrebuilt.ready hnoted hlive (binding_ne_new hb hbase.some_cpu)
  · intro u hu
    have hgone : u ∉ s₂.proc.cache.tasks ∨ u ∉ s₂.w.threads := by
      rcases hu with hu | hu
      · exact .inr hu
      · refine .inl ?_
        rw [hrebuilt.cache]
        refine rebuildIn_frame fs (fun r hr t ht tids htids x hx hxu => ?_) s.proc.cache s.w
        obtain ⟨hi, hhtr⟩ := (mem_scanTargets htids).mp (List.mem_filterMap.mpr ⟨r, hr, ht.1⟩)
        exact (congrArg _ (ScanTarget.threadName_eq x hhtr)).trans (hu t.pid t.pkg tids x hi ht.2 hx hxu)
    rw [hcache, hw]
    exact ⟨not_mem_affinitySyncIn hgone, lookup_affinitySyncIn hgone⟩

/-- Proc mode on the device of `Placed.deployed`. -/
def polledDevice : Polled := ⟨Placed.deployed.cfg, ProcState.new, Placed.deployed.w⟩

theorem init_polledDevice : Init (parseOf [Placed.oneEntry]) (fun _ _ => true) polledDevice :=
  ⟨rfl, ∅, Placed.deployed, Placed.init_deployed, .refl _⟩

/-- Between the rebuild and its correction the thread is moved to another CPU. -/
theorem rebuild_enforces_deployed :
    ∃ s₁ s₂ s₃,
      polledDevice.step (parseOf [Placed.oneEntry]) (fun _ _ => true) (.sync .allows ProcState.oneProcess) = some s₁ ∧
      s₁.step (parseOf [Placed.oneEntry]) (fun _ _ => true) (.foreign 10 ⟨fromRange "7".toList, baseCpuset⟩) = some s₂ ∧
      s₂.step (parseOf [Placed.oneEntry]) (fun _ _ => true) (.affinity false) = some s₃ ∧
      10 ∈ s₃.proc.cache.tasks ∧ (s₃.w.threads.lookup 10).map Standing.mask = some (fromRange "0-3".toList) := by
  have hi : Interested polledDevice.cfg (ProcState.oneProcess.dir.getD []) 10 "com.a".toList [⟨10, none, allAlive⟩] :=
    ⟨_, List.mem_cons_self, rfl, by decide +kernel, by decide +kernel, rfl⟩
  have hout : Outside (.foreign 10 ⟨fromRange "7".toList, baseCpuset⟩) := trivial
  have hstands : ∀ s₁ s₂ s₃,
      polledDevice.step (parseOf [Placed.oneEntry]) (fun _ _ => true) (.sync .allows ProcState.oneProcess) = some s₁ →
      s₁.step (parseOf [Placed.oneEntry]) (fun _ _ => true) (.foreign 10 ⟨fromRange "7".toList, baseCpuset⟩) = some s₂ →
      s₂.step (parseOf [Placed.oneEntry]) (fun _ _ => true) (.affinity false) = some s₃ → 10 ∈ s₂.w.threads →
      Stands (fun _ _ => true) polledDevice.cfg.topo 10 (fromRange "0-3".toList) false 10 s₃.proc.cache s₃.w :=
    fun s₁ s₂ s₃ h₁ h₂ h₃ hlive =>
      (rebuild_enforces (parseOf [Placed.oneEntry]) (fun _ _ => true) polledDevice s₁ s₂ s₃ .allows
        ProcState.oneProcess (ProcState.oneProcess.dir.getD []) false ⟨polledDevice, init_polledDevice, .refl _⟩ rfl
        oneProcess_snapshot Placed.deployed_base (by decide +kernel) h₁ (.single hout h₂) h₃).1 10 "com.a".toList _
        ⟨10, none, allAlive⟩ _ _ hi (.inl rfl) List.mem_cons_self hlive (by decide +kernel)
  exact ⟨_, _, _, rfl, rfl, rfl, (hstands _ _ _ rfl rfl rfl (by decide +kernel)).placed Placed.deployed_movable⟩

end Polled

end AetherOptExt
