import AetherOptExt.System

/-! # Scans and corrections without an interruption

`Sys` takes a scan or a correction apart into jobs, between which kernel actions can come.  When
none comes, the jobs amount to the function of the source: `fullScan` on what the processes that
run let be read (`scan_uninterrupted`), and `correctAffinity` (`sync_uninterrupted`). -/

namespace AetherOptExt

/-- What is read of a thread, with the answers for the threads that are live. -/
def TidReading.over (live : Tid → Bool) (x : TidReading) : TidReading := { x with env := x.env.over live }

def ProcReading.over (live : Tid → Bool) (r : ProcReading) : ProcReading :=
  { r with tids := r.tids.map (List.map (TidReading.over live)) }

def ScanTarget.over (live : Tid → Bool) (t : ScanTarget) : ScanTarget :=
  { t with tids := t.tids.map (List.map (TidReading.over live)) }

/-- The selection looks at names only. -/
theorem scanTarget_over (cfg : AppConfig) (live : Tid → Bool) (r : ProcReading) :
    scanTarget cfg (r.over live) = (scanTarget cfg r).map (ScanTarget.over live) := by
  unfold scanTarget ProcReading.over
  cases r.pid with
  | none => rfl
  | some pid =>
      cases (readCmdline r.cmdline).or (tidComm r.comm) with
      | none => rfl
      | some pkg =>
          simp only [Option.bind_eq_bind, Option.bind_some]
          split_ifs
          · rfl
          · rfl

namespace Sys

/-- The guard of the runs that only work off jobs. -/
def JobsOnly (_ : Sys) (a : Action) : Prop := a = .job

/-- The daemon works off jobs, and nothing else happens. -/
def Works (L : Layout) (s s' : Sys) : Prop := Runs.Steps (step L) JobsOnly s s'

theorem Works.job {L : Layout} {s : Sys} {j : Job} {rest : List Job} (ht : s.todo = j :: rest) :
    Works L s ({ s with todo := rest }.runJob j) := by
  refine Runs.Steps.single (a := .job) rfl ?_
  unfold step
  rw [ht]

theorem Works.trans {L : Layout} {s s₁ s₂ : Sys} (h₁ : Works L s s₁) (h₂ : Works L s₁ s₂) : Works L s s₂ :=
  Runs.Steps.trans h₁ h₂

/-! ### Deletions -/

theorem works_dels (L : Layout) : ∀ (ts : List Tid) (s : Sys) (rest : List Job), s.todo = ts.map Job.del ++ rest →
    Works L s { s with todo := rest, applied := ts.foldl appliedDel s.applied }
  | [], s, rest, h => by
      have hs : { s with todo := rest, applied := [].foldl appliedDel s.applied } = s := by
        rw [List.map_nil, List.nil_append] at h
        rw [← h]
        rfl
      rw [hs]
      exact .refl s
  | t :: ts, s, rest, h => (Works.job h).trans (works_dels L ts _ rest rfl)

/-! ### The scan -/

/-- What can be read of an entry of `/proc`: nothing, unless the process runs. -/
def seen (s : Sys) (r : ProcReading) : Option ProcReading :=
  (r.pid.bind s.procOf).map (fun _ => r.over s.live)

/-- The process that a look selects, with its tick. -/
def selected (s : Sys) (r : ProcReading) : Option (ScanTarget × ℕ) :=
  (r.pid.bind s.procOf).bind (fun k => (scanTarget s.cfg r).map (fun t => (t, k)))

theorem lookAt_eq (s : Sys) (r : ProcReading) :
    s.lookAt r = { s with todo := s.todo ++ (s.selected r).toList.flatMap (fun t => targetJobs t.1 t.2) } := by
  unfold lookAt selected
  cases r.pid.bind s.procOf with
  | none => simp
  | some k =>
      cases scanTarget s.cfg r with
      | none => simp
      | some t => simp

theorem works_looks (L : Layout) : ∀ (rs : List ProcReading) (s : Sys) (rest : List Job),
    s.todo = rs.map Job.look ++ rest →
      Works L s { s with todo := rest ++ (rs.filterMap s.selected).flatMap (fun t => targetJobs t.1 t.2) }
  | [], s, rest, h => by
      have hs : { s with todo := rest ++ ([].filterMap s.selected).flatMap (fun t => targetJobs t.1 t.2) } = s := by
        rw [List.map_nil, List.nil_append] at h
        rw [List.filterMap_nil, List.flatMap_nil, List.append_nil, ← h]
      rw [hs]
      exact .refl s
  | r :: rs, s, rest, h => by
      have hone : Works L s ({ s with todo := rs.map Job.look ++ rest }.lookAt r) := Works.job h
      rw [lookAt_eq] at hone
      have hrest := works_looks L rs
        { s with todo := rs.map Job.look ++ (rest ++ (s.selected r).toList.flatMap (fun t => targetJobs t.1 t.2)) }
        _ rfl
      have hlist : rest ++ (s.selected r).toList.flatMap (fun t => targetJobs t.1 t.2) ++
          (rs.filterMap s.selected).flatMap (fun t => targetJobs t.1 t.2) =
          rest ++ ((r :: rs).filterMap s.selected).flatMap (fun t => targetJobs t.1 t.2) := by
        cases hr : s.selected r with
        | none => simp [hr]
        | some t => simp [hr]
      rw [← hlist]
      rw [← List.append_assoc] at hrest
      exact hone.trans hrest

/-- The threads of one process. -/
theorem works_binds (L : Layout) (pid : Tid) (pkg : Str) (htr : Bool) (k : ℕ) :
    ∀ (xs : List TidReading) (s : Sys) (rest : List Job), s.todo = xs.map (Job.bind pid pkg htr k) ++ rest →
      Works L s
        { s with
          todo := rest
          cache := ((xs.map (TidReading.over s.live)).foldl (scanTask s.cfg pid pkg htr) (s.cache, s.applied)).1
          applied := ((xs.map (TidReading.over s.live)).foldl (scanTask s.cfg pid pkg htr) (s.cache, s.applied)).2 }
  | [], s, rest, h => by
      rw [List.map_nil, List.nil_append] at h
      rw [← h]
      exact .refl s
  | x :: xs, s, rest, h => (Works.job h).trans (works_binds L pid pkg htr k xs _ rest rfl)

/-- One selected process. -/
theorem works_target (L : Layout) (t : ScanTarget) (k : ℕ) (s : Sys) (rest : List Job)
    (h : s.todo = targetJobs t k ++ rest) :
    ∃ prov, Works L s
      { s with
        todo := rest
        cache := (scanProc s.cfg (s.cache, s.applied) (t.over s.live)).1
        applied := (scanProc s.cfg (s.cache, s.applied) (t.over s.live)).2
        prov := prov } := by
  obtain ⟨pid, pkg, htr, tids⟩ := t
  cases tids with
  | none =>
      refine ⟨s.prov, ?_⟩
      change s.todo = rest at h
      rw [← h]
      exact .refl s
  | some xs =>
      refine ⟨Function.update s.prov pid k, ?_⟩
      have hbind := works_binds L pid pkg htr k xs s (Job.record pid pkg htr k :: rest) (by
        rw [h]
        exact List.append_assoc _ _ _)
      exact hbind.trans (@Works.job L _ (.record pid pkg htr k) rest rfl)

theorem works_targets (L : Layout) : ∀ (ts : List (ScanTarget × ℕ)) (s : Sys),
    s.todo = ts.flatMap (fun t => targetJobs t.1 t.2) →
      ∃ prov, Works L s
        { s with
          todo := []
          cache := ((ts.map (fun t => t.1.over s.live)).foldl (scanProc s.cfg) (s.cache, s.applied)).1
          applied := ((ts.map (fun t => t.1.over s.live)).foldl (scanProc s.cfg) (s.cache, s.applied)).2
          prov := prov }
  | [], s, h => by
      refine ⟨s.prov, ?_⟩
      change s.todo = [] at h
      rw [← h]
      exact .refl s
  | t :: ts, s, h => by
      let rest := ts.flatMap (fun t : ScanTarget × ℕ => targetJobs t.1 t.2)
      let out := scanProc s.cfg (s.cache, s.applied) (t.1.over s.live)
      obtain ⟨prov, hone⟩ := works_target L t.1 t.2 s rest h
      obtain ⟨prov', hrest⟩ := works_targets L ts
        { s with todo := rest, cache := out.1, applied := out.2, prov := prov } rfl
      exact ⟨prov', hone.trans hrest⟩

/-- What is selected of the readings that can be had. -/
theorem filterMap_scanTarget_seen (s : Sys) (dir : List ProcReading) :
    (dir.filterMap s.seen).filterMap (scanTarget s.cfg) =
      (dir.filterMap s.selected).map (fun t => t.1.over s.live) := by
  rw [List.filterMap_filterMap, List.map_filterMap]
  congr 1
  funext r
  unfold seen selected
  cases hk : r.pid.bind s.procOf with
  | none => rfl
  | some k =>
      simp only [Option.map_some, Option.bind_some, scanTarget_over, Option.map_map]
      rfl

/-- **A scan that is not interrupted is `full_scan`.** -/
theorem scan_uninterrupted (L : Layout) (s : Sys) (ht : s.todo = []) (cfg : AppConfig) (target : TargetMap)
    (dir : List ProcReading) :
    ∃ s₁ s', step L s (.scan cfg target dir) = some s₁ ∧ Works L s₁ s' ∧ s'.todo = [] ∧
      (s'.cache, s'.applied) = fullScan cfg (some (dir.filterMap s.seen)) s.cache s.applied ∧
      s'.threads = s.threads ∧ s'.queue = s.queue := by
  let s₁ : Sys := { s with
    cfg := cfg
    target := target
    cache := s.cache.clear
    todo := s.applied.keys.map Job.del ++ dir.map Job.look }
  have hstep : step L s (.scan cfg target dir) = some s₁ := by
    unfold step
    simp only [ht, List.isEmpty_nil, if_true]
    rfl
  have hdels := works_dels L s.applied.keys s₁ (dir.map Job.look) rfl
  have hlooks := works_looks L dir { s₁ with todo := dir.map Job.look, applied := appliedClear s.applied } []
    (List.append_nil _).symm
  obtain ⟨prov, htargets⟩ := works_targets L (dir.filterMap s₁.selected)
    { s₁ with
      todo := (dir.filterMap s₁.selected).flatMap (fun t => targetJobs t.1 t.2)
      applied := appliedClear s.applied } rfl
  refine ⟨s₁, _, hstep, hdels.trans (hlooks.trans htargets), rfl, ?_, rfl, rfl⟩
  unfold fullScan
  have hseen := filterMap_scanTarget_seen s₁ dir
  change _ = (List.filterMap (scanTarget s₁.cfg) (dir.filterMap s₁.seen)).foldl _ _
  rw [hseen]
  rfl

/-! ### The correction -/

/-- The answers for each thread, among the live ones. -/
def overAll (env : Tid → Env) (live : Tid → Bool) (t : Tid) : Env := (env t).over live

/-- The thread, if it has exited. -/
def exited (env : Env) (topo : CpuTopology) (e : Sigma fun _ : Tid => TaskEntry) : Option Tid :=
  if affinitySet env e.1 e.2.cpus e.2.cpusetDir topo then some e.1 else none

theorem probe_eq {s : Sys} {e : Sigma fun _ : Tid => TaskEntry} (he : s.cache.tasks.lookup e.1 = some e.2)
    (env : Env) :
    s.probe e.1 env = { s with dead := s.dead ++ (exited (env.over s.live) s.cfg.topo e).toList } := by
  unfold probe exited
  simp only [he]
  split_ifs
  · rfl
  · rw [Option.toList_none, List.append_nil]

/-- The bound threads are asked one after the other. -/
theorem works_probes (L : Layout) (env : Tid → Env) : ∀ (es : List (Sigma fun _ : Tid => TaskEntry)) (s : Sys)
    (rest : List Job), (∀ e ∈ es, s.cache.tasks.lookup e.1 = some e.2) →
      s.todo = es.map (fun e => Job.probe e.1 (env e.1)) ++ rest →
      Works L s
        { s with
          todo := rest
          dead := s.dead ++ es.filterMap (fun e => exited (overAll env s.live e.1) s.cfg.topo e) }
  | [], s, rest, _, h => by
      rw [List.map_nil, List.nil_append] at h
      rw [← h, List.filterMap_nil, List.append_nil]
      exact .refl s
  | e :: es, s, rest, hes, h => by
      let rest' := es.map (fun e => Job.probe e.1 (env e.1)) ++ rest
      let found := exited (overAll env s.live e.1) s.cfg.topo e
      have hone : Works L s ({ s with todo := rest' }.probe e.1 (env e.1)) := Works.job h
      rw [probe_eq (s := { s with todo := rest' }) (hes e List.mem_cons_self)] at hone
      have hrest := works_probes L env es { s with todo := rest', dead := s.dead ++ found.toList } rest
        (fun e' he' => hes e' (List.mem_cons_of_mem e he')) rfl
      have hdead : (e :: es).filterMap (fun e => exited (overAll env s.live e.1) s.cfg.topo e) =
          found.toList ++ es.filterMap (fun e => exited (overAll env s.live e.1) s.cfg.topo e) := by
        cases hf : found with
        | none => exact List.filterMap_cons_none hf
        | some t => exact List.filterMap_cons_some hf
      rw [hdead, ← List.append_assoc]
      exact hone.trans hrest

/-- What the probes find is removed after the last of them. -/
def Reaped (s : Sys) : Prop :=
  (∃ pre post, s.todo = pre ++ Job.reap :: post ∧ ∀ t env, Job.probe t env ∉ post) ∨
    (s.dead = [] ∧ ∀ t env, Job.probe t env ∉ s.todo)

theorem Reaped.job {s : Sys} (h : s.Reaped) {j : Job} {rest : List Job} (ht : s.todo = j :: rest) :
    ({ s with todo := rest }.runJob j).Reaped := by
  -- the cases of a job that adds nothing and finds nothing, or leaves a later `reap`
  have hrest : (∃ pre post, rest = pre ++ Job.reap :: post ∧ ∀ t env, Job.probe t env ∉ post) ∨
      ((j = .reap ∨ s.dead = [] ∧ ∀ t env, j ≠ .probe t env) ∧ ∀ t env, Job.probe t env ∉ rest) := by
    rcases h with ⟨pre, post, hs, hpost⟩ | ⟨hd, hn⟩
    · rw [ht] at hs
      cases pre with
      | nil =>
          obtain ⟨rfl, rfl⟩ := List.cons.inj hs
          exact Or.inr ⟨Or.inl rfl, hpost⟩
      | cons i pre => exact Or.inl ⟨pre, post, (List.cons.inj hs).2, hpost⟩
    · rw [ht] at hn
      refine Or.inr ⟨Or.inr ⟨hd, fun t env he => hn t env ?_⟩, fun t env hm => hn t env (List.mem_cons_of_mem j hm)⟩
      rw [he]
      exact List.mem_cons_self
  have hplain : ∀ s' : Sys, s'.todo = rest → s'.dead = s.dead → j ≠ .reap → s'.Reaped := by
    intro s' hs' hd' hj
    unfold Reaped
    rw [hs', hd']
    exact hrest.imp_right fun hr => ⟨(hr.1.resolve_left hj).1, hr.2⟩
  cases j with
  | del t => exact hplain _ rfl rfl Job.noConfusion
  | bind pid pkg htr k x => exact hplain _ rfl rfl Job.noConfusion
  | record pid pkg htr k => exact hplain _ rfl rfl Job.noConfusion
  | look r =>
      show ({ s with todo := rest }.lookAt r).Reaped
      rcases lookAt_case { s with todo := rest } r with he | ⟨k, t, -, -, he⟩
      · rw [he]
        exact hplain _ rfl rfl Job.noConfusion
      · rw [he]
        have hnew : ∀ u env, Job.probe u env ∉ targetJobs t k := by
          intro u env hu
          rcases mem_targetJobs hu with ⟨x, hx⟩ | hx
          · cases hx
          · cases hx
        rcases hrest with ⟨pre, post, hs, hpost⟩ | ⟨hd, hn⟩
        · refine Or.inl ⟨pre, post ++ targetJobs t k, ?_, fun u env hu => ?_⟩
          · show rest ++ _ = _
            rw [hs, List.append_assoc, List.cons_append]
          · exact (List.mem_append.mp hu).elim (hpost u env) (hnew u env)
        · refine Or.inr ⟨(hd.resolve_left Job.noConfusion).1, fun u env hu => ?_⟩
          exact (List.mem_append.mp hu).elim (hn u env) (hnew u env)
  | probe t env =>
      show ({ s with todo := rest }.probe t env).Reaped
      rcases hrest with hr | ⟨hd, -⟩
      · rcases probe_case { s with todo := rest } t env with he | he
        · rw [he]
          exact Or.inl hr
        · rw [he]
          exact Or.inl hr
      · exact absurd rfl ((hd.resolve_left Job.noConfusion).2 t env)
  | reap =>
      have hdels : ∀ t env, Job.probe t env ∉ s.dead.map Job.del := by
        intro t env hm
        obtain ⟨u, -, he⟩ := List.mem_map.mp hm
        cases he
      rcases hrest with ⟨pre, post, hs, hpost⟩ | ⟨-, hn⟩
      · refine Or.inl ⟨s.dead.map Job.del ++ pre, post, ?_, hpost⟩
        show s.dead.map Job.del ++ rest = _
        rw [hs, List.append_assoc]
      · exact Or.inr ⟨rfl, fun t env hm => (List.mem_append.mp hm).elim (hdels t env) (hn t env)⟩

theorem Reaped.dead_nil {s : Sys} (h : s.Reaped) (ht : s.todo = []) : s.dead = [] := by
  rcases h with ⟨pre, post, he, -⟩ | ⟨hd, -⟩
  · rw [ht] at he
    exact absurd he.symm (List.append_ne_nil_of_right_ne_nil _ (List.cons_ne_nil _ _))
  · exact hd

theorem reaped_init {s : Sys} (h : s.Init) : s.Reaped := by
  refine Or.inr ⟨h.dead, fun t env hm => ?_⟩
  rw [h.todo] at hm
  exact absurd hm List.not_mem_nil

theorem Reaped.step {L : Layout} {s s' : Sys} {a : Action} (h : s.Reaped) (hs : step L s a = some s') : s'.Reaped := by
  cases step_case hs with
  | kernel hk => cases hk <;> exact h
  | dispatch ht hq => exact h
  | scan ht =>
      refine Or.inr ⟨h.dead_nil ht, fun t env hm => ?_⟩
      rcases List.mem_append.mp hm with hm | hm
      · obtain ⟨u, -, he⟩ := List.mem_map.mp hm
        cases he
      · obtain ⟨r, -, he⟩ := List.mem_map.mp hm
        cases he
  | sync ht => exact Or.inl ⟨_, [], rfl, fun _ _ => List.not_mem_nil⟩
  | job ht => exact h.job ht

/-- Between two pieces of work nothing is left to remove. -/
theorem dead_nil {L : Layout} {s : Sys} (h : Runs.Reachable (step L) (fun _ _ => True) Init s) (ht : s.todo = []) :
    s.dead = [] := by
  have hr : s.Reaped := h.invariant (fun s₀ h₀ => reaped_init h₀) fun s a s' hI _ hs => hI.step hs
  exact hr.dead_nil ht

/-- **A correction that is not interrupted is `affinity_sync`** with the deletions after it. -/
theorem sync_uninterrupted (L : Layout) (s : Sys) (h : Runs.Reachable (step L) (fun _ _ => True) Init s)
    (ht : s.todo = []) (env : Tid → Env) :
    ∃ s₁ s', step L s (.sync env) = some s₁ ∧ Works L s₁ s' ∧ s'.todo = [] ∧ s'.dead = [] ∧
      (s'.cache, s'.applied) = correctAffinity (overAll env s.live) s.cfg s.cache s.applied ∧
      s'.threads = s.threads ∧ s'.queue = s.queue := by
  have hd : s.dead = [] := dead_nil h ht
  let s₁ : Sys := { s with todo := s.cache.tasks.keys.map (fun t => Job.probe t (env t)) ++ [Job.reap] }
  have hstep : step L s (.sync env) = some s₁ := by
    unfold step
    simp only [ht, List.isEmpty_nil, if_true]
    rfl
  let dead := s.cache.deadTids (overAll env s.live) s.cfg.topo
  have hprobes : Works L s₁ { s₁ with todo := [Job.reap], dead := dead } := by
    have h := works_probes L env s.cache.tasks.entries s₁ [Job.reap] (fun e he => AList.mem_lookup_iff.mpr he) (by
      show s.cache.tasks.keys.map (fun t => Job.probe t (env t)) ++ [Job.reap] = _
      unfold AList.keys List.keys
      rw [List.map_map]
      rfl)
    change Works L s₁ { s₁ with todo := [Job.reap], dead := s.dead ++ dead } at h
    rw [hd, List.nil_append] at h
    exact h
  have hreap := @Works.job L { s₁ with todo := [Job.reap], dead := dead } .reap [] rfl
  have hdels := works_dels L dead
    { s₁ with
      cache := dead.foldl ProcCache.taskDel s.cache
      todo := dead.map Job.del ++ []
      dead := [] } [] rfl
  exact ⟨s₁, _, hstep, hprobes.trans (hreap.trans hdels), rfl, rfl, rfl, rfl, rfl⟩

end Sys

end AetherOptExt
