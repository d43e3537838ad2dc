import AetherOptExt.Bpf
import AetherOptExt.Process
import AetherOptExt.RuleMatch

/-! # The process cache (`proccache.rs`)

`ProcCache` holds two maps: `pkgs` gives the package of a process, `tasks` the binding of a
thread.  `taskApply` computes and applies the binding of one thread; the caller says how to
apply it (`applyFn`), with a state of its own that the call may change.  `ApplyCase` lists
what one call can do, and later proofs go by its four cases instead of the definition.

`ProcCache.Agree` is the law that `task_del`'s comment asks for: a process is in `pkgs`
exactly while one of its threads is in `tasks`. -/

namespace AetherOptExt

/-- A bound thread. -/
structure TaskEntry where
  pid : Tid
  cpus : CpuSet
  cpusetDir : Str
  isThreadRule : Bool
deriving DecidableEq

structure ProcCache where
  pkgs : KeyMap Tid (Str × Bool)
  tasks : KeyMap Tid TaskEntry

namespace ProcCache

def new : ProcCache := ⟨∅, ∅⟩

def clear (_ : ProcCache) : ProcCache := ⟨∅, ∅⟩

/-- `pkgs_purge`: forget the package of a process without bound threads. -/
def pkgsPurge (pc : ProcCache) (pid : Tid) : ProcCache :=
  if pc.tasks.anyValue (fun t => t.pid == pid) then pc else { pc with pkgs := pc.pkgs.erase pid }

/-- `task_del`. -/
def taskDel (pc : ProcCache) (tid : Tid) : ProcCache :=
  match pc.tasks.lookup tid with
  | none => { pc with tasks := pc.tasks.erase tid }
  | some t => { pc with tasks := pc.tasks.erase tid }.pkgsPurge t.pid

/-- `pkg_lookup_comm`: the mapped package, else the one the name resolves to, which is then
mapped. -/
def pkgLookupComm (pc : ProcCache) (pid : Tid) (comm : Str) (cfg : AppConfig) :
    Option (Str × Bool) × ProcCache :=
  match pc.pkgs.lookup pid with
  | some p => (some p, pc)
  | none =>
      match commToPkg comm cfg with
      | none => (none, pc)
      | some pkg =>
          let p := (pkg, cfg.pkgHasThreadRules pkg)
          (some p, { pc with pkgs := pc.pkgs.insert pid p })

/-- The name `task_apply` matches against the thread rules. -/
def threadName (hasThreadRules trustComm : Bool) (comm : Str) : Str :=
  if hasThreadRules && trustComm then comm else []

/-- A fallback result does not replace a binding made by a thread rule. -/
def keeps (pc : ProcCache) (tid : Tid) (result : AffinityResult) : Bool :=
  !result.isThreadRule && (pc.tasks.lookup tid).any (fun old => old.isThreadRule)

/-- The entry that records a result. -/
def entryOf (pid : Tid) (result : AffinityResult) : TaskEntry :=
  { pid := pid, cpus := result.cpus, cpusetDir := result.cpusetDir, isThreadRule := result.isThreadRule }

/-- `task_apply`. -/
def taskApply {σ : Type*} (mk : DirCall → Bool) (pc : ProcCache) (tid pid : Tid) (pkg comm : Str)
    (hasThreadRules : Bool) (cfg : AppConfig) (trustComm : Bool)
    (applyFn : Tid → CpuSet → Str → σ → Bool × σ) (s : σ) : Bool × ProcCache × σ :=
  match threadAffinity mk pkg (threadName hasThreadRules trustComm comm) cfg cfg.topo with
  | none => (false, pc, s)
  | some result =>
      if pc.keeps tid result then (true, pc, s)
      else
        let tasks := pc.tasks.erase tid
        let (dead, s) := applyFn tid result.cpus result.cpusetDir s
        if dead then (false, { pc with tasks := tasks }, s)
        else (true, { pc with tasks := tasks.insert tid (entryOf pid result) }, s)

/-- The threads of the cache that `affinity_set` reports as exited. -/
def deadTids (pc : ProcCache) (env : Tid → Env) (topo : CpuTopology) : List Tid :=
  pc.tasks.entries.filterMap (fun e =>
    if affinitySet (env e.1) e.1 e.2.cpus e.2.cpusetDir topo then some e.1 else none)

/-- `affinity_sync`: the exited threads and the cache without them.  `env` answers for each
thread, since the operating system may change between two of them. -/
def affinitySync (pc : ProcCache) (env : Tid → Env) (topo : CpuTopology) : List Tid × ProcCache :=
  let dead := pc.deadTids env topo
  (dead, dead.foldl taskDel pc)

/-! ### Removal -/

/-- `tid` is bound as a thread of `pid`. -/
def BoundTo (pc : ProcCache) (tid pid : Tid) : Prop := ∃ e, pc.tasks.lookup tid = some e ∧ e.pid = pid

/-- Some thread of `pid` is bound. -/
def HasTask (pc : ProcCache) (pid : Tid) : Prop := ∃ tid, pc.BoundTo tid pid

theorem hasTask_iff {pc : ProcCache} {pid : Tid} :
    pc.tasks.anyValue (fun t => t.pid == pid) = true ↔ pc.HasTask pid := by
  rw [KeyMap.anyValue_iff]
  constructor
  · rintro ⟨tid, e, he, hp⟩
    exact ⟨tid, e, he, beq_iff_eq.mp hp⟩
  · rintro ⟨tid, e, he, hp⟩
    exact ⟨tid, e, he, beq_iff_eq.mpr hp⟩

instance (pc : ProcCache) (pid : Tid) : Decidable (pc.HasTask pid) :=
  decidable_of_iff _ hasTask_iff

theorem BoundTo.mem {pc : ProcCache} {tid pid : Tid} (h : pc.BoundTo tid pid) : tid ∈ pc.tasks := by
  obtain ⟨e, he, -⟩ := h
  exact KeyMap.mem_of_lookup he

@[simp] theorem pkgsPurge_tasks (pc : ProcCache) (pid : Tid) : (pc.pkgsPurge pid).tasks = pc.tasks := by
  unfold pkgsPurge
  split_ifs <;> rfl

@[simp] theorem taskDel_tasks (pc : ProcCache) (tid : Tid) : (pc.taskDel tid).tasks = pc.tasks.erase tid := by
  unfold taskDel
  cases pc.tasks.lookup tid with
  | none => rfl
  | some t => exact pkgsPurge_tasks _ _

theorem mem_taskDel {pc : ProcCache} {tid t : Tid} : t ∈ (pc.taskDel tid).tasks ↔ t ≠ tid ∧ t ∈ pc.tasks := by
  rw [taskDel_tasks]
  exact AList.mem_erase

theorem boundTo_taskDel {pc : ProcCache} {tid t pid : Tid} :
    (pc.taskDel tid).BoundTo t pid ↔ t ≠ tid ∧ pc.BoundTo t pid := by
  unfold BoundTo
  rw [taskDel_tasks, KeyMap.lookup_erase]
  by_cases h : t = tid
  · simp [h]
  · simp [h]

/-- `task_del` forgets the package of the removed thread's process when no other thread of it
is bound, and no other package. -/
theorem mem_pkgs_taskDel {pc : ProcCache} {tid pid : Tid} :
    pid ∈ (pc.taskDel tid).pkgs ↔ pid ∈ pc.pkgs ∧ (pc.BoundTo tid pid → (pc.taskDel tid).HasTask pid) := by
  unfold HasTask
  simp only [boundTo_taskDel]
  unfold taskDel BoundTo
  cases ht : pc.tasks.lookup tid with
  | none => simp
  | some t =>
      have key : ({ pc with tasks := pc.tasks.erase tid } : ProcCache).HasTask t.pid ↔
          ∃ u, u ≠ tid ∧ ∃ e, pc.tasks.lookup u = some e ∧ e.pid = t.pid := by
        unfold HasTask BoundTo
        refine exists_congr fun u => ?_
        rw [KeyMap.lookup_erase]
        by_cases h : u = tid
        · simp [h]
        · simp [h]
      unfold pkgsPurge
      by_cases h : ({ pc with tasks := pc.tasks.erase tid } : ProcCache).HasTask t.pid
      · simp only [hasTask_iff.mpr h, if_true]
        constructor
        · intro hp
          refine ⟨hp, ?_⟩
          rintro ⟨e, he, hep⟩
          obtain rfl := Option.some.inj he
          rw [← hep]
          exact key.mp h
        · exact fun hp => hp.1
      · have h' := h
        rw [← hasTask_iff, Bool.not_eq_true] at h'
        simp only [h', Bool.false_eq_true, if_false, AList.mem_erase]
        constructor
        · rintro ⟨hne, hp⟩
          refine ⟨hp, ?_⟩
          rintro ⟨e, he, hep⟩
          obtain rfl := Option.some.inj he
          exact absurd hep.symm hne
        · rintro ⟨hp, hb⟩
          refine ⟨?_, hp⟩
          rintro rfl
          exact h (key.mpr (hb ⟨t, rfl, rfl⟩))

/-- `task_del` maps no process anew. -/
theorem taskDel_pkgs_lookup {pc : ProcCache} {tid q : Tid} {p : Str × Bool}
    (h : (pc.taskDel tid).pkgs.lookup q = some p) : pc.pkgs.lookup q = some p := by
  unfold taskDel pkgsPurge at h
  cases ht : pc.tasks.lookup tid with
  | none =>
      rw [ht] at h
      exact h
  | some t =>
      simp only [ht] at h
      split_ifs at h
      · exact h
      · rw [KeyMap.lookup_erase] at h
        split_ifs at h
        exact h

/-- Mapped processes keep a bound thread when `task_del` removes one. -/
theorem backed_taskDel {pc : ProcCache} (h : ∀ q ∈ pc.pkgs, pc.HasTask q) (tid : Tid) :
    ∀ q ∈ (pc.taskDel tid).pkgs, (pc.taskDel tid).HasTask q := by
  intro q hq
  obtain ⟨hm, hb⟩ := mem_pkgs_taskDel.mp hq
  obtain ⟨v, hv⟩ := h q hm
  rcases eq_or_ne v tid with rfl | hne
  · exact hb hv
  · exact ⟨v, boundTo_taskDel.mpr ⟨hne, hv⟩⟩

/-! ### Removal of several threads -/

theorem foldl_taskDel_tasks : ∀ (ts : List Tid) (pc : ProcCache),
    (ts.foldl taskDel pc).tasks = pc.tasks.eraseAll ts
  | [], _ => rfl
  | t :: ts, pc => by
      rw [List.foldl_cons, foldl_taskDel_tasks ts, taskDel_tasks]
      rfl

theorem mem_foldl_taskDel {ts : List Tid} {pc : ProcCache} {t : Tid} :
    t ∈ (ts.foldl taskDel pc).tasks ↔ t ∈ pc.tasks ∧ t ∉ ts := by
  rw [foldl_taskDel_tasks]
  exact KeyMap.mem_eraseAll

theorem boundTo_foldl_taskDel {ts : List Tid} {pc : ProcCache} {t pid : Tid} :
    (ts.foldl taskDel pc).BoundTo t pid ↔ t ∉ ts ∧ pc.BoundTo t pid := by
  unfold BoundTo
  rw [foldl_taskDel_tasks, KeyMap.lookup_eraseAll]
  by_cases h : t ∈ ts
  · simp [h]
  · simp [h]

/-- No process is mapped anew. -/
theorem foldl_taskDel_pkgs_lookup {q : Tid} {p : Str × Bool} : ∀ (ts : List Tid) (pc : ProcCache),
    (ts.foldl taskDel pc).pkgs.lookup q = some p → pc.pkgs.lookup q = some p
  | [], _, h => h
  | t :: ts, pc, h => taskDel_pkgs_lookup (foldl_taskDel_pkgs_lookup ts (pc.taskDel t) h)

/-- A process that loses a thread stays mapped exactly when it keeps another one, in whatever
order the threads are removed: the removal of its last thread forgets it. -/
theorem mem_pkgs_foldl_taskDel {q : Tid} : ∀ {ts : List Tid} {pc : ProcCache},
    q ∈ (ts.foldl taskDel pc).pkgs ↔
      q ∈ pc.pkgs ∧ ((∃ t ∈ ts, pc.BoundTo t q) → (ts.foldl taskDel pc).HasTask q)
  | [], pc => by simp
  | t :: ts, pc => by
      have hfinal : ∀ v, (ts.foldl taskDel (pc.taskDel t)).BoundTo v q ↔ v ∉ ts ∧ (pc.taskDel t).BoundTo v q :=
        fun v => boundTo_foldl_taskDel
      rw [List.foldl_cons, mem_pkgs_foldl_taskDel, mem_pkgs_taskDel, and_assoc]
      refine and_congr_right fun _ => ⟨fun ⟨h1, h2⟩ => ?_, fun h => ⟨fun ht => ?_, fun ⟨u, hu, hb⟩ => ?_⟩⟩
      · rintro ⟨u, hu, hb⟩
        rcases eq_or_ne u t with rfl | hne
        · -- another thread is left at first, and goes later or not at all
          obtain ⟨v, hv⟩ := h1 hb
          by_cases hvts : v ∈ ts
          · exact h2 ⟨v, hvts, hv⟩
          · exact ⟨v, (hfinal v).mpr ⟨hvts, hv⟩⟩
        · exact h2 ⟨u, (List.mem_cons.mp hu).resolve_left hne, boundTo_taskDel.mpr ⟨hne, hb⟩⟩
      · obtain ⟨v, hv⟩ := h ⟨t, List.mem_cons_self, ht⟩
        exact ⟨v, ((hfinal v).mp hv).2⟩
      · exact h ⟨u, List.mem_cons_of_mem t hu, (boundTo_taskDel.mp hb).2⟩

theorem backed_foldl_taskDel (ts : List Tid) (pc : ProcCache) (h : ∀ q ∈ pc.pkgs, pc.HasTask q) :
    ∀ q ∈ (ts.foldl taskDel pc).pkgs, (ts.foldl taskDel pc).HasTask q := by
  intro q hq
  obtain ⟨hm, hkeep⟩ := mem_pkgs_foldl_taskDel.mp hq
  obtain ⟨v, hv⟩ := h q hm
  by_cases hvts : v ∈ ts
  · exact hkeep ⟨v, hvts, hv⟩
  · exact ⟨v, boundTo_foldl_taskDel.mpr ⟨hvts, hv⟩⟩

/-! ### The cases of `task_apply` -/

/-- What one call of `task_apply` can do, with its result. -/
inductive ApplyCase {σ : Type*} (mk : DirCall → Bool) (pc : ProcCache) (tid pid : Tid) (pkg name : Str)
    (cfg : AppConfig) (applyFn : Tid → CpuSet → Str → σ → Bool × σ) (s : σ) :
    Bool × ProcCache × σ → Prop
  | unruled (h : threadAffinity mk pkg name cfg cfg.topo = none) :
      ApplyCase mk pc tid pid pkg name cfg applyFn s (false, pc, s)
  | kept {r : AffinityResult} (h : threadAffinity mk pkg name cfg cfg.topo = some r)
      (hk : pc.keeps tid r = true) : ApplyCase mk pc tid pid pkg name cfg applyFn s (true, pc, s)
  | gone {r : AffinityResult} (h : threadAffinity mk pkg name cfg cfg.topo = some r)
      (hk : pc.keeps tid r = false) (hd : (applyFn tid r.cpus r.cpusetDir s).1 = true) :
      ApplyCase mk pc tid pid pkg name cfg applyFn s
        (false, { pc with tasks := pc.tasks.erase tid }, (applyFn tid r.cpus r.cpusetDir s).2)
  | bound {r : AffinityResult} (h : threadAffinity mk pkg name cfg cfg.topo = some r)
      (hk : pc.keeps tid r = false) (hd : (applyFn tid r.cpus r.cpusetDir s).1 = false) :
      ApplyCase mk pc tid pid pkg name cfg applyFn s
        (true, { pc with tasks := (pc.tasks.erase tid).insert tid (entryOf pid r) },
          (applyFn tid r.cpus r.cpusetDir s).2)

theorem taskApply_case {σ : Type*} (mk : DirCall → Bool) (pc : ProcCache) (tid pid : Tid) (pkg comm : Str)
    (htr : Bool) (cfg : AppConfig) (trust : Bool) (applyFn : Tid → CpuSet → Str → σ → Bool × σ) (s : σ) :
    ApplyCase mk pc tid pid pkg (threadName htr trust comm) cfg applyFn s
      (pc.taskApply mk tid pid pkg comm htr cfg trust applyFn s) := by
  unfold taskApply
  cases h : threadAffinity mk pkg (threadName htr trust comm) cfg cfg.topo with
  | none => exact .unruled h
  | some r =>
      cases hk : pc.keeps tid r with
      | true =>
          simp only [hk, if_true]
          exact .kept h hk
      | false =>
          simp only [hk, Bool.false_eq_true, if_false]
          cases hd : (applyFn tid r.cpus r.cpusetDir s).1 with
          | true => simpa only [hd, if_true] using ApplyCase.gone h hk hd
          | false => simpa only [hd, Bool.false_eq_true, if_false] using ApplyCase.bound h hk hd

theorem keeps_mem {pc : ProcCache} {tid : Tid} {r : AffinityResult} (h : pc.keeps tid r = true) :
    ∃ e, pc.tasks.lookup tid = some e ∧ e.isThreadRule = true ∧ r.isThreadRule = false := by
  unfold keeps at h
  rw [Bool.and_eq_true, Option.any_eq_true, Bool.not_eq_true'] at h
  obtain ⟨hr, e, he, hk⟩ := h
  exact ⟨e, he, hk, hr⟩

/-- `task_apply` changes `tasks` at its thread only. -/
theorem taskApply_lookup_ne {σ : Type*} {mk : DirCall → Bool} {pc : ProcCache} {tid pid : Tid}
    {pkg name : Str} {cfg : AppConfig} {applyFn : Tid → CpuSet → Str → σ → Bool × σ} {s : σ}
    {out : Bool × ProcCache × σ} (h : ApplyCase mk pc tid pid pkg name cfg applyFn s out) {t : Tid}
    (ht : t ≠ tid) : out.2.1.tasks.lookup t = pc.tasks.lookup t := by
  cases h with
  | unruled => rfl
  | kept => rfl
  | gone => exact (KeyMap.lookup_erase pc.tasks tid t).trans (if_neg ht)
  | bound =>
      rw [KeyMap.lookup_insert, if_neg ht, KeyMap.lookup_erase, if_neg ht]

/-- `task_apply` leaves `pkgs` alone. -/
theorem taskApply_pkgs {σ : Type*} {mk : DirCall → Bool} {pc : ProcCache} {tid pid : Tid}
    {pkg name : Str} {cfg : AppConfig} {applyFn : Tid → CpuSet → Str → σ → Bool × σ} {s : σ}
    {out : Bool × ProcCache × σ} (h : ApplyCase mk pc tid pid pkg name cfg applyFn s out) :
    out.2.1.pkgs = pc.pkgs := by
  cases h <;> rfl

/-! ### Lookup -/

theorem pkgLookupComm_tasks (pc : ProcCache) (pid : Tid) (comm : Str) (cfg : AppConfig) :
    (pc.pkgLookupComm pid comm cfg).2.tasks = pc.tasks := by
  unfold pkgLookupComm
  cases pc.pkgs.lookup pid with
  | some p => rfl
  | none => cases commToPkg comm cfg <;> rfl

/-- A successful lookup leaves its answer mapped and every other process as it was. -/
theorem pkgLookupComm_lookup {pc : ProcCache} {pid : Tid} {comm : Str} {cfg : AppConfig} {p : Str × Bool}
    (h : (pc.pkgLookupComm pid comm cfg).1 = some p) (q : Tid) :
    (pc.pkgLookupComm pid comm cfg).2.pkgs.lookup q = if q = pid then some p else pc.pkgs.lookup q := by
  unfold pkgLookupComm at h ⊢
  cases hl : pc.pkgs.lookup pid with
  | some p' =>
      simp only [hl] at h ⊢
      obtain rfl := Option.some.inj h
      split_ifs with hq
      · subst hq
        exact hl
      · rfl
  | none =>
      simp only [hl] at h ⊢
      cases hc : commToPkg comm cfg with
      | none => simp [hc] at h
      | some pkg =>
          simp only [hc, Option.some.injEq] at h ⊢
          subst h
          exact KeyMap.lookup_insert _ _ _ _

/-- A failed lookup changes nothing. -/
theorem pkgLookupComm_none {pc : ProcCache} {pid : Tid} {comm : Str} {cfg : AppConfig}
    (h : (pc.pkgLookupComm pid comm cfg).1 = none) : (pc.pkgLookupComm pid comm cfg).2 = pc := by
  unfold pkgLookupComm at h ⊢
  cases hl : pc.pkgs.lookup pid with
  | some p => simp [hl] at h
  | none =>
      simp only [hl] at h ⊢
      cases hc : commToPkg comm cfg with
      | none => rfl
      | some pkg => simp [hc] at h

/-! ### Agreement of the two maps -/

/-- A process is mapped exactly while one of its threads is bound. -/
def Agree (pc : ProcCache) : Prop := ∀ pid, pid ∈ pc.pkgs ↔ pc.HasTask pid

theorem agree_new : new.Agree := by
  intro pid
  constructor
  · intro h
    exact absurd h (AList.notMem_empty pid)
  · rintro ⟨tid, e, he, -⟩
    exact absurd (KeyMap.mem_of_lookup he) (AList.notMem_empty tid)

/-- Removing a thread by `task_del` keeps the agreement. -/
theorem Agree.taskDel {pc : ProcCache} (h : pc.Agree) (tid : Tid) : (pc.taskDel tid).Agree := by
  intro pid
  constructor
  · exact backed_taskDel (fun q => (h q).mp) tid pid
  · rintro ⟨u, hu⟩
    have hp : pid ∈ pc.pkgs := (h pid).mpr ⟨u, (boundTo_taskDel.mp hu).2⟩
    exact mem_pkgs_taskDel.mpr ⟨hp, fun _ => ⟨u, hu⟩⟩

theorem Agree.affinitySync {pc : ProcCache} (h : pc.Agree) (env : Tid → Env) (topo : CpuTopology) :
    (pc.affinitySync env topo).2.Agree := by
  show ((pc.deadTids env topo).foldl ProcCache.taskDel pc).Agree
  induction pc.deadTids env topo generalizing pc with
  | nil => exact h
  | cons tid tids ih => exact ih (h.taskDel tid)

end ProcCache

end AetherOptExt
