import AetherOptExt.Enforcement

/-! # The daemon on a placement

The daemon of eBPF mode handles events, scans `/proc` and corrects; each of these creates the
directories it needs and moves threads.  `taskApplyIn` and the functions over it are those of the
source with a `Placement` as a state.  What they do to the cache and to `APPLIED_MAP` is what
`taskApply`, `eventDispatch`, `fullScan` and `correctAffinity` do with the answers that the
placement gives (`taskApplyIn_fst`, `eventDispatchIn_fst`, `fullScanIn_fst`,
`correctAffinityIn_fst`). -/

namespace AetherOptExt

open CpuSet ProcCache

/-! ### The steps of the source on a placement -/

namespace Placement

section

variable (fs : FsAnswers) (allow : Tid → Str → Bool)

/-- The outcome of a creation. -/
def answers (tree : CpusetTree) (call : DirCall) : Bool := (createCpusetDir fs tree call).1

/-- The directories after some creations. -/
def createAll (tree : CpusetTree) (calls : List DirCall) : CpusetTree :=
  calls.foldl (fun tree call => (createCpusetDir fs tree call).2) tree

/-- `event_affinity_apply`. -/
def eventAffinityApplyIn (topo : CpuTopology) (tid : Tid) (cpus : CpuSet) (cpusetDir : Str)
    (s : AppliedMap × Placement) : Bool × AppliedMap × Placement :=
  let out := s.2.affinitySetIn allow tid cpus cpusetDir topo
  (out.1, if !out.1 then appliedSet s.1 tid (cpus.word 0) else s.1, out.2.2)

/-- `task_apply`: `thread_affinity` creates its directory before the thread is bound. -/
def taskApplyIn (pc : ProcCache) (tid pid : Tid) (pkg comm : Str) (htr : Bool) (cfg : AppConfig) (trust : Bool)
    (s : AppliedMap × Placement) : Bool × ProcCache × AppliedMap × Placement :=
  let made := (threadAffinityRun (answers fs s.2.tree) pkg (threadName htr trust comm) cfg cfg.topo).2
  pc.taskApply (answers fs s.2.tree) tid pid pkg comm htr cfg trust (eventAffinityApplyIn allow cfg.topo)
    (s.1, { s.2 with tree := createAll fs s.2.tree made })

/-- `event_apply`. -/
def eventApplyIn (pc : ProcCache) (tid pid : Tid) (comm : Str) (cfg : AppConfig) (trust : Bool)
    (s : AppliedMap × Placement) : Bool × ProcCache × AppliedMap × Placement :=
  match pc.pkgLookupComm pid comm cfg with
  | (none, pc) => (false, pc, s)
  | (some (pkg, htr), pc) => (true, (taskApplyIn fs allow pc tid pid pkg comm htr cfg trust s).2)

/-- `event_dispatch`. -/
def eventDispatchIn (event : ProcEvent) (cfg : AppConfig) (pc : ProcCache) (s : AppliedMap × Placement) :
    ProcCache × AppliedMap × Placement :=
  let tid := event.tid
  let pid := event.pid
  let comm := commStr event.comm
  if event.eventType = eventExit then
    let pc := if tid = pid then { pc with pkgs := pc.pkgs.erase pid } else pc
    (pc.taskDel tid, appliedDel s.1 tid, s.2)
  else if event.eventType = eventExec then
    let pc := { pc with pkgs := pc.pkgs.erase pid }
    match eventApplyIn fs allow pc tid pid comm cfg true s with
    | (false, pc, s) => (pc.taskDel tid, appliedDel s.1 tid, s.2)
    | (true, out) => out
  else if event.eventType = eventFork then (eventApplyIn fs allow pc tid pid comm cfg (tid = pid) s).2
  else if event.eventType = eventRename then (eventApplyIn fs allow pc tid pid comm cfg true s).2
  else (pc, s)

/-- The scan of one thread. -/
def scanTaskIn (cfg : AppConfig) (pid : Tid) (pkg : Str) (htr : Bool) (acc : ProcCache × AppliedMap × Placement)
    (t : TidReading) : ProcCache × AppliedMap × Placement :=
  (taskApplyIn fs allow acc.1 t.tid pid pkg (scanName htr t.comm) htr cfg true acc.2).2

/-- The scan of one selected process. -/
def scanProcIn (cfg : AppConfig) (acc : ProcCache × AppliedMap × Placement) (t : ScanTarget) :
    ProcCache × AppliedMap × Placement :=
  match t.tids with
  | none => acc
  | some tids =>
      let acc := tids.foldl (scanTaskIn fs allow cfg t.pid t.pkg t.htr) acc
      ({ acc.1 with pkgs := acc.1.pkgs.insert t.pid (t.pkg, t.htr) }, acc.2)

/-- `full_scan`. -/
def fullScanIn (cfg : AppConfig) (dir : Option (List ProcReading)) (pc : ProcCache) (s : AppliedMap × Placement) :
    ProcCache × AppliedMap × Placement :=
  let pc := pc.clear
  let applied := appliedClear s.1
  match dir with
  | none => (pc, applied, s.2)
  | some entries => (entries.filterMap (scanTarget cfg)).foldl (scanProcIn fs allow cfg) (pc, applied, s.2)

/-- One entry of the file: its directory is created before the next entry is read. -/
def loadEntryIn (topo : CpuTopology) (acc : Loaded × CpusetTree) (e : JsonValue) : Loaded × CpusetTree :=
  let out := loadEntry (fun _ => answers fs acc.2) topo acc.1 e
  (out, createAll fs acc.2 (out.made.drop acc.1.made.length))

/-- `AppConfig::load`: the directories stay when the metadata call fails. -/
def loadIn (parse : Str → Option JsonValue) (topo : CpuTopology) (data : Option Str) (mtime : Option ℕ)
    (tree : CpusetTree) : Option AppConfig × CpusetTree :=
  match (data.bind parse).bind loadRoot with
  | none => (none, tree)
  | some (entries, ebpf) =>
      let out := entries.foldl (loadEntryIn fs topo) (⟨[], KeySet.empty, [], []⟩, tree)
      (mtime.map (AppConfig.ofLoaded topo (out.1, ebpf)), out.2)

/-- The correction of the main loop. -/
def correctAffinityIn (cfg : AppConfig) (pc : ProcCache) (s : AppliedMap × Placement) :
    ProcCache × AppliedMap × Placement :=
  let out := s.2.affinitySyncIn allow pc cfg.topo
  (out.1.2, out.1.1.foldl appliedDel s.1, out.2.2)

/-- The answers of an operating system with these threads. -/
def envOf (mk : DirCall → Bool) (live : Tid → Bool) : Env := Env.over ⟨fun _ => none, fun _ _ => none, mk⟩ live

/-- The operating system's answers in a placement. -/
def env (w : Placement) : Env := envOf (answers fs w.tree) w.live

end

/-! ### What they do to the cache -/

/-- `task_apply` with two ways to apply a binding that report the same and leave related states. -/
theorem taskApply_related {σ τ : Type*} (R : σ → τ → Prop) {f : Tid → CpuSet → Str → σ → Bool × σ}
    {g : Tid → CpuSet → Str → τ → Bool × τ}
    (h : ∀ tid cpus dir s t, R s t → (f tid cpus dir s).1 = (g tid cpus dir t).1 ∧
      R (f tid cpus dir s).2 (g tid cpus dir t).2)
    (mk : DirCall → Bool) (pc : ProcCache) (tid pid : Tid) (pkg comm : Str) (htr : Bool) (cfg : AppConfig)
    (trust : Bool) {s : σ} {t : τ} (hst : R s t) :
    let out := pc.taskApply mk tid pid pkg comm htr cfg trust f s
    let out' := pc.taskApply mk tid pid pkg comm htr cfg trust g t
    out.1 = out'.1 ∧ out.2.1 = out'.2.1 ∧ R out.2.2 out'.2.2 := by
  unfold taskApply
  cases threadAffinity mk pkg (threadName htr trust comm) cfg cfg.topo with
  | none => exact ⟨rfl, rfl, hst⟩
  | some r =>
      obtain ⟨hdead, hstep⟩ := h tid r.cpus r.cpusetDir s t hst
      dsimp only
      rw [hdead]
      split_ifs
      · exact ⟨rfl, rfl, hst⟩
      · exact ⟨rfl, rfl, hstep⟩
      · exact ⟨rfl, rfl, hstep⟩

variable (fs : FsAnswers) (allow : Tid → Str → Bool)

/-- The map and the threads of a state. -/
def Mirrors (live : Tid → Bool) (s : AppliedMap × Placement) (applied : AppliedMap) : Prop :=
  s.1 = applied ∧ s.2.live = live

theorem eventAffinityApplyIn_mirrors {live : Tid → Bool} (mk : DirCall → Bool) (topo : CpuTopology) (tid : Tid)
    (cpus : CpuSet) (dir : Str) (s : AppliedMap × Placement) (applied : AppliedMap) (h : Mirrors live s applied) :
    (eventAffinityApplyIn allow topo tid cpus dir s).1 =
        (eventAffinityApply (envOf mk live) topo tid cpus dir applied).1 ∧
      Mirrors live (eventAffinityApplyIn allow topo tid cpus dir s).2
        (eventAffinityApply (envOf mk live) topo tid cpus dir applied).2 := by
  obtain ⟨rfl, rfl⟩ := h
  have hdead : (s.2.affinitySetIn allow tid cpus dir topo).1 = affinitySet (envOf mk s.2.live) tid cpus dir topo := by
    rw [affinitySetIn_fst, envOf, affinitySet_over]
    unfold live
    by_cases ht : tid ∈ s.2.threads <;> simp [ht]
  have hlive : (s.2.affinitySetIn allow tid cpus dir topo).2.2.live = s.2.live := by
    funext u
    exact decide_eq_decide.mpr (mem_affinitySetIn s.2 tid cpus dir u)
  refine ⟨hdead, ?_, hlive⟩
  unfold eventAffinityApplyIn eventAffinityApply
  dsimp only
  rw [hdead]

/-- On the cache and `APPLIED_MAP`, `task_apply` is that of the answers in the placement. -/
theorem taskApplyIn_fst (pc : ProcCache) (tid pid : Tid) (pkg comm : Str) (htr : Bool) (cfg : AppConfig)
    (trust : Bool) (s : AppliedMap × Placement) :
    ((taskApplyIn fs allow pc tid pid pkg comm htr cfg trust s).1,
        (taskApplyIn fs allow pc tid pid pkg comm htr cfg trust s).2.1,
        (taskApplyIn fs allow pc tid pid pkg comm htr cfg trust s).2.2.1) =
      pc.taskApply (env fs s.2).createDir tid pid pkg comm htr cfg trust
        (eventAffinityApply (env fs s.2) cfg.topo) s.1 ∧
    (taskApplyIn fs allow pc tid pid pkg comm htr cfg trust s).2.2.2.live = s.2.live := by
  have h := taskApply_related (Mirrors s.2.live)
    (f := eventAffinityApplyIn allow cfg.topo) (g := eventAffinityApply (env fs s.2) cfg.topo)
    (eventAffinityApplyIn_mirrors allow (answers fs s.2.tree) cfg.topo)
    (answers fs s.2.tree) pc tid pid pkg comm htr cfg trust
    (s := (s.1, { s.2 with tree := createAll fs s.2.tree (threadAffinityRun (answers fs s.2.tree) pkg
      (threadName htr trust comm) cfg cfg.topo).2 })) (t := s.1) ⟨rfl, rfl⟩
  obtain ⟨h1, h2, h3, h4⟩ := h
  exact ⟨Prod.ext h1 (Prod.ext h2 h3), h4⟩

/-- On the cache and `APPLIED_MAP`, an event does what `event_dispatch` does. -/
theorem eventDispatchIn_fst (event : ProcEvent) (cfg : AppConfig) (pc : ProcCache) (s : AppliedMap × Placement) :
    ((eventDispatchIn fs allow event cfg pc s).1, (eventDispatchIn fs allow event cfg pc s).2.1) =
      eventDispatch (env fs s.2) event cfg pc s.1 := by
  have happly : ∀ (pc : ProcCache) (trust : Bool),
      ((eventApplyIn fs allow pc event.tid event.pid (commStr event.comm) cfg trust s).1,
        (eventApplyIn fs allow pc event.tid event.pid (commStr event.comm) cfg trust s).2.1,
        (eventApplyIn fs allow pc event.tid event.pid (commStr event.comm) cfg trust s).2.2.1) =
      eventApply (env fs s.2) pc s.1 event.tid event.pid (commStr event.comm) cfg trust := by
    intro pc trust
    unfold eventApplyIn eventApply
    match pc.pkgLookupComm event.pid (commStr event.comm) cfg with
    | (none, pc) => rfl
    | (some (pkg, htr), pc) =>
        have h := (taskApplyIn_fst fs allow pc event.tid event.pid pkg (commStr event.comm) htr cfg trust s).1
        exact congrArg (fun out => (true, out.2)) h
  unfold eventDispatchIn eventDispatch
  by_cases hexit : event.eventType = eventExit
  · simp only [hexit, if_true]
  simp only [hexit, if_false]
  by_cases hexec : event.eventType = eventExec
  · simp only [hexec, if_true]
    rw [← happly]
    match eventApplyIn fs allow { pc with pkgs := pc.pkgs.erase event.pid } event.tid event.pid
      (commStr event.comm) cfg true s with
    | (false, _) => rfl
    | (true, _) => rfl
  simp only [hexec, if_false]
  by_cases hfork : event.eventType = eventFork
  · simp only [hfork, if_true]
    rw [← happly]
  simp only [hfork, if_false]
  by_cases hren : event.eventType = eventRename
  · simp only [hren, if_true]
    rw [← happly]
  · simp only [hren, if_false]

/-- On the cache and `APPLIED_MAP`, a correction does what that of the main loop does. -/
theorem correctAffinityIn_fst (cfg : AppConfig) (pc : ProcCache) (s : AppliedMap × Placement) :
    ((correctAffinityIn allow cfg pc s).1, (correctAffinityIn allow cfg pc s).2.1) =
      correctAffinity (fun _ => env fs s.2) cfg pc s.1 := by
  unfold correctAffinityIn correctAffinity
  dsimp only
  rw [affinitySyncIn_fst pc s.2 ⟨fun _ => none, fun _ _ => none, answers fs s.2.tree⟩]
  rfl

/-- What a scan reads of a thread, apart from the operating system's answers. -/
def listed (x : TidReading) : Tid × Option Str := (x.tid, x.comm)

/-- The second entry is the first one, read with the answers of an operating system with these threads. -/
structure Answered (live : Tid → Bool) (r r' : ProcReading) : Prop where
  pid : r'.pid = r.pid
  cmdline : r'.cmdline = r.cmdline
  comm : r'.comm = r.comm
  tids : r'.tids.map (List.map listed) = r.tids.map (List.map listed)
  env : ∀ tids, r'.tids = some tids → ∀ x ∈ tids, ∃ mk, x.env = envOf mk live

/-- Every entry can be read so. -/
theorem exists_answered (live : Tid → Bool) (r : ProcReading) : ∃ r', Answered live r r' := by
  let reread : List TidReading → List TidReading := List.map fun x => { x with env := envOf (fun _ => true) live }
  refine ⟨{ r with tids := r.tids.map reread }, rfl, rfl, rfl, ?_, fun tids htids x hx => ?_⟩
  · rw [Option.map_map]
    refine congrArg (fun f => r.tids.map f) (funext fun tids => ?_)
    show (tids.map _).map listed = tids.map listed
    rw [List.map_map]
    rfl
  · obtain ⟨tids, -, rfl⟩ := Option.map_eq_some_iff.mp htids
    obtain ⟨y, -, rfl⟩ := List.mem_map.mp hx
    exact ⟨_, rfl⟩

theorem Answered.scanTarget_none {live : Tid → Bool} {r r' : ProcReading} {cfg : AppConfig}
    (h : Answered live r r') (hn : scanTarget cfg r = none) : scanTarget cfg r' = none := by
  rw [Option.eq_none_iff_forall_ne_some] at hn ⊢
  intro t ht
  obtain ⟨pid, pkg, hpid, hpkg, hi, -⟩ := scanTarget_eq_some.mp ht
  rw [h.pid] at hpid
  rw [h.cmdline, h.comm] at hpkg
  exact hn _ (scanTarget_eq_some.mpr ⟨pid, pkg, hpid, hpkg, hi, rfl⟩)

theorem foldl_scanTaskIn_fst (cfg : AppConfig) (pid : Tid) (pkg : Str) (htr : Bool) :
    ∀ (tids : List TidReading) (acc : ProcCache × AppliedMap × Placement), ∃ tids' : List TidReading,
      tids'.map listed = tids.map listed ∧ (∀ x ∈ tids', ∃ mk, x.env = envOf mk acc.2.2.live) ∧
      (tids.foldl (scanTaskIn fs allow cfg pid pkg htr) acc).2.2.live = acc.2.2.live ∧
      ((tids.foldl (scanTaskIn fs allow cfg pid pkg htr) acc).1,
          (tids.foldl (scanTaskIn fs allow cfg pid pkg htr) acc).2.1) =
        tids'.foldl (scanTask cfg pid pkg htr) (acc.1, acc.2.1)
  | [], acc => ⟨[], rfl, fun _ hx => absurd hx List.not_mem_nil, rfl, rfl⟩
  | x :: tids, acc => by
      obtain ⟨tids', hsame, henv, hlive, hfold⟩ := foldl_scanTaskIn_fst cfg pid pkg htr tids
        (scanTaskIn fs allow cfg pid pkg htr acc x)
      obtain ⟨hx, hxlive⟩ := taskApplyIn_fst fs allow acc.1 x.tid pid pkg (scanName htr x.comm) htr cfg true acc.2
      have hxlive : (scanTaskIn fs allow cfg pid pkg htr acc x).2.2.live = acc.2.2.live := hxlive
      rw [hxlive] at henv hlive
      refine ⟨{ x with env := env fs acc.2.2 } :: tids', congrArg ((x.tid, x.comm) :: ·) hsame,
        List.forall_mem_cons.mpr ⟨⟨_, rfl⟩, henv⟩, hlive, ?_⟩
      have hstep : scanTask cfg pid pkg htr (acc.1, acc.2.1) { x with env := env fs acc.2.2 } =
          ((scanTaskIn fs allow cfg pid pkg htr acc x).1, (scanTaskIn fs allow cfg pid pkg htr acc x).2.1) :=
        (congrArg Prod.snd hx).symm
      rw [List.foldl_cons, List.foldl_cons, hstep]
      exact hfold

/-- Scanning one entry, on the cache and `APPLIED_MAP`. -/
theorem scanProcIn_fst (cfg : AppConfig) (r : ProcReading) (acc : ProcCache × AppliedMap × Placement) :
    ∃ r', Answered acc.2.2.live r r' ∧
      (((scanTarget cfg r).toList.foldl (scanProcIn fs allow cfg) acc).1,
          ((scanTarget cfg r).toList.foldl (scanProcIn fs allow cfg) acc).2.1) =
        (scanTarget cfg r').toList.foldl (scanProc cfg) (acc.1, acc.2.1) ∧
      ((scanTarget cfg r).toList.foldl (scanProcIn fs allow cfg) acc).2.2.live = acc.2.2.live := by
  cases ht : scanTarget cfg r with
  | none =>
      obtain ⟨r', hr'⟩ := exists_answered acc.2.2.live r
      refine ⟨r', hr', ?_, rfl⟩
      rw [hr'.scanTarget_none ht]
      rfl
  | some t =>
      obtain ⟨pid, pkg, hpid, hpkg, hi, rfl⟩ := scanTarget_eq_some.mp ht
      cases htids : r.tids with
      | none =>
          refine ⟨r, ⟨rfl, rfl, rfl, rfl, fun tids h => by rw [htids] at h; cases h⟩, ?_, rfl⟩
          rw [ht, htids]
          rfl
      | some tids =>
          obtain ⟨tids', hsame, henv, hlive, hthreads⟩ := foldl_scanTaskIn_fst fs allow cfg pid pkg
            (cfg.pkgHasThreadRules pkg) tids acc
          have ht' : scanTarget cfg { r with tids := some tids' } =
              some ⟨pid, pkg, cfg.pkgHasThreadRules pkg, some tids'⟩ :=
            scanTarget_eq_some.mpr ⟨pid, pkg, hpid, hpkg, hi, rfl⟩
          refine ⟨{ r with tids := some tids' }, ⟨rfl, rfl, rfl, ?_, fun _ h => Option.some.inj h ▸ henv⟩, ?_, hlive⟩
          · rw [htids, Option.map_some, Option.map_some, hsame]
          · rw [ht']
            unfold scanProcIn scanProc
            dsimp only [Option.toList, List.foldl]
            rw [← hthreads]

/-- On the cache and `APPLIED_MAP`, a scan is a `full_scan` of the same listing. -/
theorem fullScanIn_fst (cfg : AppConfig) (dir : Option (List ProcReading)) (pc : ProcCache)
    (s : AppliedMap × Placement) : ∃ dir', Option.Rel (List.Forall₂ (Answered s.2.live)) dir dir' ∧
      ((fullScanIn fs allow cfg dir pc s).1, (fullScanIn fs allow cfg dir pc s).2.1) = fullScan cfg dir' pc s.1 ∧
      (fullScanIn fs allow cfg dir pc s).2.2.live = s.2.live := by
  cases dir with
  | none => exact ⟨none, .none, rfl, rfl⟩
  | some entries =>
      suffices h : ∀ (entries : List ProcReading) (acc : ProcCache × AppliedMap × Placement), ∃ entries',
          List.Forall₂ (Answered acc.2.2.live) entries entries' ∧
          (((entries.filterMap (scanTarget cfg)).foldl (scanProcIn fs allow cfg) acc).1,
              ((entries.filterMap (scanTarget cfg)).foldl (scanProcIn fs allow cfg) acc).2.1) =
            (entries'.filterMap (scanTarget cfg)).foldl (scanProc cfg) (acc.1, acc.2.1) ∧
          ((entries.filterMap (scanTarget cfg)).foldl (scanProcIn fs allow cfg) acc).2.2.live = acc.2.2.live by
        obtain ⟨entries', hsame, hfold, hlive⟩ := h entries (pc.clear, appliedClear s.1, s.2)
        exact ⟨some entries', .some hsame, hfold, hlive⟩
      intro entries
      induction entries with
      | nil => exact fun acc => ⟨[], .nil, rfl, rfl⟩
      | cons r entries ih =>
          intro acc
          obtain ⟨r', hr, hfirst, hlive⟩ := scanProcIn_fst fs allow cfg r acc
          obtain ⟨entries', hsame, hfold, hrest⟩ := ih ((scanTarget cfg r).toList.foldl (scanProcIn fs allow cfg) acc)
          rw [hlive] at hsame hrest
          have hcons : ∀ (r : ProcReading) (entries : List ProcReading), (r :: entries).filterMap (scanTarget cfg) =
              (scanTarget cfg r).toList ++ entries.filterMap (scanTarget cfg) := fun r entries => by
            rw [List.filterMap_eq_flatMap_toList, List.filterMap_eq_flatMap_toList, List.flatMap_cons]
          refine ⟨r' :: entries', .cons hr hsame, ?_, ?_⟩
          · rw [hcons, hcons, List.foldl_append, List.foldl_append, hfold, hfirst]
          · rw [hcons, List.foldl_append]
            exact hrest

/-! ### Loading -/

/-- The calls that an entry makes. -/
def entryCalls (topo : CpuTopology) (e : JsonValue) : List DirCall :=
  if entryPackages e = [] then []
  else if topo.cpusetEnabled then [subdirCall (fromRange (entryOther e)).toRangeString topo] else []

theorem loadEntry_made (mk : ℕ → DirCall → Bool) (topo : CpuTopology) (acc : Loaded) (e : JsonValue) :
    (loadEntry mk topo acc e).made = acc.made ++ entryCalls topo e := by
  unfold loadEntry entryCalls
  cases entryPackages e with
  | nil => simp
  | cons first rest =>
      unfold otherCpusetDir ensureCpusetDir
      cases topo.cpusetEnabled with
      | false => simp
      | true => simp

/-- An entry only asks for the outcome of its own call. -/
theorem loadEntry_congr {mk mk' : ℕ → DirCall → Bool} (topo : CpuTopology) (acc : Loaded) (e : JsonValue)
    (h : mk acc.made.length = mk' acc.made.length) : loadEntry mk topo acc e = loadEntry mk' topo acc e := by
  unfold loadEntry
  rw [h]

/-- Reading the entries one after the other, each in the tree that the ones before have left. -/
theorem foldl_loadEntryIn (topo : CpuTopology) (tree : CpusetTree) : ∀ (entries : List JsonValue) (acc : Loaded)
    (calls : List DirCall), acc.made ++ entries.flatMap (entryCalls topo) = calls →
    entries.foldl (loadEntryIn fs topo) (acc, createAll fs tree acc.made) =
      (entries.foldl (loadEntry (fun k => answers fs (createAll fs tree (calls.take k))) topo) acc,
        createAll fs tree calls)
  | [], acc, calls, h => by
      rw [List.flatMap_nil, List.append_nil] at h
      rw [List.foldl_nil, List.foldl_nil, h]
  | e :: entries, acc, calls, h => by
      have htake : calls.take acc.made.length = acc.made := by rw [← h, List.take_left]
      have hentry : loadEntry (fun k => answers fs (createAll fs tree (calls.take k))) topo acc e =
          loadEntry (fun _ => answers fs (createAll fs tree acc.made)) topo acc e :=
        loadEntry_congr topo acc e (by rw [htake])
      have hmade := loadEntry_made (fun _ => answers fs (createAll fs tree acc.made)) topo acc e
      rw [List.foldl_cons, List.foldl_cons, hentry]
      have hstep : loadEntryIn fs topo (acc, createAll fs tree acc.made) e =
          (loadEntry (fun _ => answers fs (createAll fs tree acc.made)) topo acc e,
            createAll fs tree (loadEntry (fun _ => answers fs (createAll fs tree acc.made)) topo acc e).made) := by
        unfold loadEntryIn
        dsimp only
        rw [hmade, List.drop_left]
        unfold createAll
        rw [List.foldl_append]
      rw [hstep]
      exact foldl_loadEntryIn topo tree entries _ calls (by rw [hmade, List.append_assoc, ← List.flatMap_cons]; exact h)

/-- What is loaded is what `load` loads with the answers that the tree gives. -/
theorem loadIn_fst (parse : Str → Option JsonValue) (topo : CpuTopology) (data : Option Str) (mtime : Option ℕ)
    (tree : CpusetTree) :
    ∃ mk, (loadIn fs parse topo data mtime tree).1 = AppConfig.load parse mk topo data mtime := by
  unfold loadIn AppConfig.load loadParse
  cases data with
  | none => exact ⟨fun _ _ => true, rfl⟩
  | some text =>
      simp only [Option.bind_some, Option.bind_eq_bind]
      cases parse text with
      | none => exact ⟨fun _ _ => true, rfl⟩
      | some root =>
          simp only [Option.bind_some]
          cases loadRoot root with
          | none => exact ⟨fun _ _ => true, rfl⟩
          | some out =>
              obtain ⟨entries, ebpf⟩ := out
              refine ⟨fun k => answers fs (createAll fs tree ((entries.flatMap (entryCalls topo)).take k)), ?_⟩
              have h := foldl_loadEntryIn fs topo tree entries ⟨[], KeySet.empty, [], []⟩ _ rfl
              simp only [List.nil_append] at h
              have h' : entries.foldl (loadEntryIn fs topo) (⟨[], KeySet.empty, [], []⟩, tree) = _ := h
              simp only [h', Option.bind_some]
              cases mtime with
              | none => rfl
              | some mt => rfl

end Placement

end AetherOptExt
