import AetherOptExt.System

/-! # No exited thread stays in the cache

EXIT is reported only for threads in `APPLIED_MAP`, so a bound thread outside the map would
never be removed.  The invariant `Covered` excludes that in every interleaving of kernel actions
with events, scans and corrections: a bound thread is in the map or its EXIT event is on its way.

Scans and corrections delete from the map while kernel actions can come in between.  Two more
clauses carry the invariant through: a pending deletion is of a thread that is not bound, and
deletions come before any other pending job (`Job.phase`), so that no thread is bound while one
is pending.

The map itself holds live threads only as long as no thread in it takes over the id of its group:
the id that such a thread had ends without an exit, and no hook removes it (`taken_over_cached`).
Each takeover of this kind leaves a dead one in it, and nothing else does (`no_dead_thread_cached`). -/

namespace AetherOptExt

namespace Sys

structure Covered (s : Sys) : Prop where
  bound : ∀ t ∈ s.cache.tasks, t ∈ s.applied ∨ s.ExitQueued t
  pending : ∀ t, Job.del t ∈ s.todo → t ∉ s.cache.tasks
  order : s.todo.Pairwise (fun i j => i.phase ≤ j.phase)

/-- `APPLIED_MAP` holds live threads only. -/
def AppliedLive (s : Sys) : Prop := ∀ t ∈ s.applied, t ∈ s.threads

/-- A bound thread is in `APPLIED_MAP` or about to be removed, the map holds live threads only, and
so does the cache when no event is waiting. -/
def NoneDead (s : Sys) : Prop :=
  (∀ t ∈ s.cache.tasks, t ∈ s.applied ∨ s.ExitQueued t) ∧ (∀ t ∈ s.applied, t ∈ s.threads) ∧
    (s.queue = [] → ∀ t ∈ s.cache.tasks, t ∈ s.threads)

/-- No thread in `APPLIED_MAP` takes over another id. -/
def IdsKept (s : Sys) : Action → Prop
  | .kernel (.takeover t _) => t ∉ s.applied
  | _ => True

theorem covered_init {s : Sys} (h : s.Init) : s.Covered := by
  refine ⟨fun t ht => ?_, fun t ht => ?_, ?_⟩
  · rw [h.cache] at ht
    exact absurd ht (AList.notMem_empty t)
  · rw [h.todo] at ht
    exact absurd ht List.not_mem_nil
  · rw [h.todo]
    exact List.Pairwise.nil

theorem appliedLive_init {s : Sys} (h : s.Init) : s.AppliedLive := by
  intro t ht
  rw [h.applied] at ht
  exact absurd ht (AList.notMem_empty t)

theorem Covered.noneDead {s : Sys} (h : s.Covered) (hl : s.AppliedLive) : s.NoneDead := by
  refine ⟨h.bound, hl, fun hq t ht => ?_⟩
  rcases h.bound t ht with ha | ⟨e, he, -⟩
  · exact hl t ha
  · rw [hq] at he
    exact absurd he List.not_mem_nil

/-! ### Kernel actions -/

/-- A kernel action touches neither the cache nor the work, keeps the events in the queue, and
a thread that leaves `APPLIED_MAP` has its EXIT event reported. -/
theorem KernelCase.frame {s s' : Sys} {a : KernelAction} (h : KernelCase s a s') :
    s'.cache = s.cache ∧ s'.todo = s.todo ∧ (∀ e ∈ s.queue, e ∈ s'.queue) ∧
      ∀ t ∈ s.applied, t ∈ s'.applied ∨ s'.ExitQueued t := by
  cases h with
  | clone => exact ⟨rfl, rfl, fun e he => mem_report.mpr (Or.inl he), fun t ht => Or.inl (mem_applied_forked ht)⟩
  | spawn => exact ⟨rfl, rfl, fun e he => mem_report.mpr (Or.inl he), fun t ht => Or.inl (mem_applied_forked ht)⟩
  | exec => exact ⟨rfl, rfl, fun e he => mem_report.mpr (Or.inl he), fun t ht => Or.inl ht⟩
  | takeover => exact ⟨rfl, rfl, fun e he => he, fun t ht => Or.inl ht⟩
  | rename => exact ⟨rfl, rfl, fun e he => mem_report.mpr (Or.inl he), fun t ht => Or.inl ht⟩
  | @exit u x hu =>
      refine ⟨rfl, rfl, fun e he => mem_report.mpr (Or.inl he), fun t ht => ?_⟩
      rcases eq_or_ne t u with rfl | hne
      · exact Or.inr ⟨_, mem_report.mpr (Or.inr ⟨ht, rfl⟩), rfl, rfl⟩
      · exact Or.inl (mem_applied_exit ht hne)

/-- Only live threads enter `APPLIED_MAP`, and an exiting thread leaves it. -/
theorem AppliedLive.kernel {s s' : Sys} {a : KernelAction} (hl : s.AppliedLive) (h : KernelCase s a s')
    (hok : s.IdsKept (.kernel a)) : s'.AppliedLive := by
  have hfork : ∀ (u c : Tid) (child : Thread) (t : Tid),
      t ∈ (if u ∈ s.applied then s.applied.insert c 0 else s.applied) → t ∈ s.threads.insert c child := by
    intro u c child t ht
    rw [KeyMap.mem_insert]
    split_ifs at ht
    · exact (KeyMap.mem_insert.mp ht).imp_right (hl t)
    · exact Or.inr (hl t ht)
  cases h with
  | @clone u c p hu hc => exact hfork u c _
  | @spawn u c p hu hc => exact hfork u c _
  | exec => exact hl
  | @takeover u g x hu hx hg ho =>
      intro t ht
      have hne : t ≠ u := fun he => hok (he ▸ ht)
      exact KeyMap.mem_insert.mpr (Or.inr (AList.mem_erase.mpr ⟨hne, hl t ht⟩))
  | rename => exact fun t ht => KeyMap.mem_insert.mpr (Or.inr (hl t ht))
  | @exit u x hu =>
      intro t ht
      change t ∈ (if u ∈ s.applied then s.applied.erase u else s.applied) at ht
      show t ∈ s.threads.erase u
      rw [AList.mem_erase]
      split_ifs at ht with hu'
      · exact ⟨(AList.mem_erase.mp ht).1, hl t (AList.mem_erase.mp ht).2⟩
      · exact ⟨fun he => hu' (he ▸ ht), hl t ht⟩

/-- A thread of the map that takes over an id leaves its own in the map. -/
theorem KernelCase.left_behind {s s' : Sys} {t g : Tid} (h : KernelCase s (.takeover t g) s') (ht : t ∈ s.applied) :
    ¬ s'.AppliedLive := by
  cases h with
  | @takeover _ _ x hu hx hg ho =>
      intro hl
      rcases KeyMap.mem_insert.mp (hl t ht) with rfl | hm
      · exact hg (KeyMap.mem_of_lookup hu)
      · exact (AList.mem_erase.mp hm).1 rfl

theorem Covered.kernel {s s' : Sys} {a : KernelAction} (h : s.Covered) (hk : KernelCase s a s') : s'.Covered := by
  obtain ⟨hcache, htodo, hqueue, hleave⟩ := hk.frame
  refine ⟨fun t ht => ?_, fun t ht => ?_, by rw [htodo]; exact h.order⟩
  · rw [hcache] at ht
    rcases h.bound t ht with ha | ⟨e, he, het⟩
    · exact hleave t ha
    · exact Or.inr ⟨e, hqueue e he, het⟩
  · rw [htodo] at ht
    rw [hcache]
    exact h.pending t ht

/-! ### The daemon's writes -/

/-- The daemon may unbind threads, and bind those that it enters into `APPLIED_MAP`; only
threads that lose their binding leave the map, and only live ones enter it. -/
structure SafeWrite (live : Tid → Bool) (pc : ProcCache) (applied : AppliedMap) (pc' : ProcCache)
    (applied' : AppliedMap) : Prop where
  bound : ∀ t ∈ pc'.tasks, t ∈ applied' ∨ (t ∈ pc.tasks ∧ t ∉ applied)
  live : ∀ t ∈ applied', t ∈ applied ∨ live t = true

theorem safeWrite_del (live : Tid → Bool) (pc : ProcCache) (applied : AppliedMap) (tid : Tid) :
    SafeWrite live pc applied (pc.taskDel tid) (appliedDel applied tid) := by
  refine ⟨fun t ht => ?_, fun t ht => Or.inl (mem_appliedDel.mp ht).2⟩
  obtain ⟨hne, hm⟩ := ProcCache.mem_taskDel.mp ht
  by_cases ha : t ∈ applied
  · exact Or.inl (mem_appliedDel.mpr ⟨hne, ha⟩)
  · exact Or.inr ⟨hm, ha⟩

theorem safeWrite_apply {env : Env} {live : Tid → Bool} {pc : ProcCache} {tid pid : Tid} {pkg name : Str}
    {cfg : AppConfig} {applied : AppliedMap} {out : Bool × ProcCache × AppliedMap}
    (h : ProcCache.ApplyCase (env.over live).createDir pc tid pid pkg name cfg
      (eventAffinityApply (env.over live) cfg.topo) applied out) :
    SafeWrite live pc applied out.2.1 out.2.2 := by
  have hself : ∀ t ∈ pc.tasks, t ∈ applied ∨ (t ∈ pc.tasks ∧ t ∉ applied) := by
    intro t ht
    by_cases ha : t ∈ applied
    · exact Or.inl ha
    · exact Or.inr ⟨ht, ha⟩
  rcases applyCase_over h with ⟨-, ho⟩ | ⟨-, ⟨-, ho⟩ | ⟨r, w, hl, ho⟩⟩
  · rw [ho]
    exact ⟨hself, fun t ht => Or.inl ht⟩
  · rw [ho]
    exact ⟨fun t ht => hself t (AList.mem_erase.mp ht).2, fun t ht => Or.inl ht⟩
  · rw [ho]
    refine ⟨fun t ht => ?_, fun t ht => ?_⟩
    · rcases KeyMap.mem_insert.mp ht with rfl | ht
      · exact Or.inl (mem_appliedSet.mpr (Or.inl rfl))
      · exact (hself t (AList.mem_erase.mp ht).2).imp_left fun ha => mem_appliedSet.mpr (Or.inr ha)
    · rcases mem_appliedSet.mp ht with rfl | ha
      · exact Or.inr hl
      · exact Or.inl ha

theorem mem_taskDel_drop {pc : ProcCache} {pid tid t : Tid} :
    t ∈ (({ pc with pkgs := pc.pkgs.erase pid } : ProcCache).taskDel tid).tasks ↔ t ≠ tid ∧ t ∈ pc.tasks :=
  ProcCache.mem_taskDel

/-- `ev` is handled by a safe write; an EXIT event leaves its thread unbound. -/
theorem safeWrite_dispatch {env : Env} {live : Tid → Bool} {ev : ProcEvent} {cfg : AppConfig} {pc : ProcCache}
    {applied : AppliedMap} {out : ProcCache × AppliedMap}
    (h : DispatchCase (env.over live) ev cfg pc applied out) :
    SafeWrite live pc applied out.1 out.2 ∧ (ev.eventType = eventExit → ev.tid ∉ out.1.tasks) := by
  have hself : SafeWrite live pc applied pc applied :=
    ⟨fun t ht => (em (t ∈ applied)).imp_right fun ha => ⟨ht, ha⟩, fun t ht => Or.inl ht⟩
  cases h with
  | exit he =>
      refine ⟨⟨fun t ht => ?_, (safeWrite_del live pc applied ev.tid).live⟩, fun _ ht => ?_⟩
      · refine (safeWrite_del live pc applied ev.tid).bound t (ProcCache.mem_taskDel.mpr ?_)
        have hm := ProcCache.mem_taskDel.mp ht
        split_ifs at hm
        · exact hm
        · exact hm
      · exact (ProcCache.mem_taskDel.mp ht).1 rfl
  | dropped he hr =>
      have hw := safeWrite_del live pc applied ev.tid
      refine ⟨⟨fun t ht => hw.bound t (ProcCache.mem_taskDel.mpr (mem_taskDel_drop.mp ht)), hw.live⟩,
        fun hx => absurd hx (Binds.ne_exit (Or.inl he))⟩
  | unresolved he hr => exact ⟨hself, fun hx => absurd hx (Binds.ne_exit (Or.inr he))⟩
  | applied hb hr ht hp hc =>
      have hw := safeWrite_apply hc
      refine ⟨⟨fun t ht' => ?_, hw.live⟩, fun hx => absurd hx hb.ne_exit⟩
      rw [← ht]
      exact hw.bound t ht'
  | ignored he hb => exact ⟨hself, fun hx => absurd hx he⟩

/-! ### The daemon's steps -/

theorem Covered.handle {s : Sys} (h : s.Covered) (ht : s.todo = []) {env : Env} {ev : ProcEvent} {st : Stamp}
    {q : List (ProcEvent × Stamp)} (hq : s.queue = (ev, st) :: q) :
    ({ s with queue := q }.handle env ev st).Covered := by
  obtain ⟨hw, hexit⟩ := safeWrite_dispatch (eventDispatch_case (env.over s.live) ev s.cfg s.cache s.applied)
  refine ⟨fun t hb => ?_, fun t hj => ?_, ?_⟩
  · rcases hw.bound t hb with ha | ⟨hm, hna⟩
    · exact Or.inl ha
    · obtain ⟨e, he, het, hex⟩ := (h.bound t hm).resolve_left hna
      rw [hq] at he
      rcases List.mem_cons.mp he with rfl | he
      · exact absurd hb (het ▸ hexit hex)
      · exact Or.inr ⟨e, he, het, hex⟩
  · change Job.del t ∈ s.todo at hj
    rw [ht] at hj
    exact absurd hj List.not_mem_nil
  · show s.todo.Pairwise _
    rw [ht]
    exact List.Pairwise.nil

/-- Jobs of one phase are in order. -/
theorem pairwise_phase {js : List Job} {n : ℕ} (h : ∀ j ∈ js, j.phase = n) :
    js.Pairwise (fun i j => i.phase ≤ j.phase) :=
  List.pairwise_of_forall_mem_list fun i hi j hj => by rw [h i hi, h j hj]

theorem phase_dels (ts : List Tid) : ∀ j ∈ ts.map Job.del, j.phase = 0 := by
  intro j hj
  obtain ⟨t, -, rfl⟩ := List.mem_map.mp hj
  rfl

/-- After a job of a later phase no deletion is pending. -/
theorem Covered.no_del {s : Sys} (h : s.Covered) {j : Job} {rest : List Job} (ht : s.todo = j :: rest)
    (hj : 0 < j.phase) (t : Tid) : Job.del t ∉ rest := by
  have ho := h.order
  rw [ht, List.pairwise_cons] at ho
  intro hm
  have hle : j.phase ≤ 0 := ho.1 _ hm
  omega

theorem Covered.job {s : Sys} (h : s.Covered) {j : Job} {rest : List Job} (ht : s.todo = j :: rest) :
    ({ s with todo := rest }.runJob j).Covered := by
  have ho := h.order
  rw [ht, List.pairwise_cons] at ho
  obtain ⟨hfirst, horder⟩ := ho
  have hpending : ∀ t, Job.del t ∈ rest → t ∉ s.cache.tasks := fun t hr =>
    h.pending t (by rw [ht]; exact List.mem_cons_of_mem j hr)
  have hidle : Covered { s with todo := rest } := ⟨h.bound, hpending, horder⟩
  cases j with
  | del u =>
      have hu : u ∉ s.cache.tasks := h.pending u (by rw [ht]; exact List.mem_cons_self)
      refine ⟨fun t hb => ?_, hpending, horder⟩
      refine (h.bound t hb).imp_left fun ha => mem_appliedDel.mpr ⟨?_, ha⟩
      rintro rfl
      exact hu hb
  | look r =>
      show ({ s with todo := rest }.lookAt r).Covered
      rcases lookAt_case { s with todo := rest } r with he | ⟨k, t, -, -, he⟩
      · rw [he]
        exact hidle
      · rw [he]
        refine ⟨h.bound, fun u hu => ?_, ?_⟩
        · rcases List.mem_append.mp hu with hu | hu
          · exact hpending u hu
          · exact absurd (phase_targetJobs hu) (by simp [Job.phase])
        · -- the new jobs are of the last phase
          refine List.pairwise_append.mpr ⟨horder, pairwise_phase fun i hi => phase_targetJobs hi, fun i _ j hj => ?_⟩
          rw [phase_targetJobs hj]
          exact i.phase_le
  | bind pid pkg htr k x =>
      have hw := safeWrite_apply (ProcCache.taskApply_case (x.env.over s.live).createDir s.cache x.tid pid pkg
        (scanName htr x.comm) htr s.cfg true (eventAffinityApply (x.env.over s.live) s.cfg.topo) s.applied)
      refine ⟨fun t hb => ?_, fun t hr => absurd hr (h.no_del ht Nat.two_pos t), horder⟩
      rcases hw.bound t hb with ha | ⟨hm, hna⟩
      · exact Or.inl ha
      · exact Or.inr ((h.bound t hm).resolve_left hna)
  | record pid pkg htr k => exact ⟨h.bound, hpending, horder⟩
  | probe t env =>
      show ({ s with todo := rest }.probe t env).Covered
      rcases probe_case { s with todo := rest } t env with he | he
      · rw [he]
        exact hidle
      · rw [he]
        exact ⟨h.bound, hpending, horder⟩
  | reap =>
      refine ⟨fun t hb => h.bound t (ProcCache.mem_foldl_taskDel.mp hb).1, fun t hr hb => ?_, ?_⟩
      · rcases List.mem_append.mp hr with hr | hr
        · obtain ⟨u, hu, he⟩ := List.mem_map.mp hr
          cases he
          exact (ProcCache.mem_foldl_taskDel.mp hb).2 hu
        · exact h.no_del ht Nat.two_pos t hr
      · refine List.pairwise_append.mpr ⟨pairwise_phase (phase_dels s.dead), horder, fun i hi j _ => ?_⟩
        rw [phase_dels s.dead i hi]
        exact Nat.zero_le _

/-- Every step keeps the invariant. -/
theorem Covered.step {L : Layout} {s s' : Sys} {a : Action} (h : s.Covered) (hs : step L s a = some s') :
    s'.Covered := by
  cases step_case hs with
  | kernel hk => exact h.kernel hk
  | dispatch ht hq => exact h.handle ht hq
  | scan ht =>
      refine ⟨fun t hb => absurd hb (AList.notMem_empty t), fun t _ hb => AList.notMem_empty t hb, ?_⟩
      refine List.pairwise_append.mpr ⟨pairwise_phase (phase_dels _), pairwise_phase (n := 1) fun j hj => ?_,
        fun i hi j _ => ?_⟩
      · obtain ⟨r, -, rfl⟩ := List.mem_map.mp hj
        rfl
      · rw [phase_dels _ i hi]
        exact Nat.zero_le _
  | @sync env ht =>
      have hphase : ∀ j ∈ s.cache.tasks.keys.map (fun t => Job.probe t (env t)) ++ [Job.reap], j.phase = 2 := by
        intro j hj
        rcases List.mem_append.mp hj with hj | hj
        · obtain ⟨t, -, rfl⟩ := List.mem_map.mp hj
          rfl
        · rw [List.mem_singleton.mp hj]
          rfl
      refine ⟨h.bound, fun t hj => ?_, pairwise_phase hphase⟩
      exact absurd (hphase _ hj) (by simp [Job.phase])
  | job ht => exact h.job ht

theorem covered_of_reachable {L : Layout} {ok : Sys → Action → Prop} {s : Sys}
    (h : Runs.Reachable (step L) ok Init s) : s.Covered :=
  h.invariant (fun _ h₀ => covered_init h₀) fun _ _ _ hI _ hs => hI.step hs

/-- The daemon enters live threads only into the map. -/
theorem AppliedLive.job {s : Sys} (h : s.AppliedLive) {j : Job} {rest : List Job} :
    ({ s with todo := rest }.runJob j).AppliedLive := by
  cases j with
  | del u => exact fun t ha => h t (mem_appliedDel.mp ha).2
  | look r =>
      show ({ s with todo := rest }.lookAt r).AppliedLive
      rcases lookAt_case { s with todo := rest } r with he | ⟨k, t, -, -, he⟩
      · rw [he]
        exact h
      · rw [he]
        exact h
  | bind pid pkg htr k x =>
      have hw := safeWrite_apply (ProcCache.taskApply_case (x.env.over s.live).createDir s.cache x.tid pid pkg
        (scanName htr x.comm) htr s.cfg true (eventAffinityApply (x.env.over s.live) s.cfg.topo) s.applied)
      exact fun t ha => (hw.live t ha).elim (h t) live_iff.mp
  | record pid pkg htr k => exact h
  | probe t env =>
      show ({ s with todo := rest }.probe t env).AppliedLive
      rcases probe_case { s with todo := rest } t env with he | he
      · rw [he]
        exact h
      · rw [he]
        exact h
  | reap => exact h

/-- A step leaves live threads only in the map exactly when no thread of the map takes over an id. -/
theorem AppliedLive.step_iff {L : Layout} {s s' : Sys} {a : Action} (h : s.AppliedLive) (hs : step L s a = some s') :
    s'.AppliedLive ↔ s.IdsKept a := by
  cases step_case hs with
  | @kernel a _ hk =>
      refine ⟨fun hl => ?_, h.kernel hk⟩
      cases a with
      | takeover t g => exact fun ht => hk.left_behind ht hl
      | clone | spawn | exec | rename | exit => trivial
  | @dispatch env ev st q ht hq =>
      have hw := (safeWrite_dispatch (eventDispatch_case (env.over s.live) ev s.cfg s.cache s.applied)).1
      exact iff_of_true (fun t ha => (hw.live t ha).elim (h t) live_iff.mp) trivial
  | scan ht => exact iff_of_true h trivial
  | sync ht => exact iff_of_true h trivial
  | job ht => exact iff_of_true h.job trivial

theorem appliedLive_of_reachable {L : Layout} {s : Sys} (h : Runs.Reachable (step L) IdsKept Init s) :
    s.AppliedLive :=
  h.invariant (fun _ h₀ => appliedLive_init h₀) fun _ _ _ hI hok hs => (hI.step_iff hs).mpr hok

/-- **No exited thread stays in the cache**, in any interleaving and under any reuse of ids, as long
as no thread in `APPLIED_MAP` takes over the id of its group; and every step that does so leaves a
thread in the map that is not live. -/
theorem no_dead_thread_cached (L : Layout) (s : Sys) (h : Runs.Reachable (step L) IdsKept Init s) :
    s.NoneDead ∧ ∀ a s', step L s a = some s' → (s'.NoneDead ↔ s.IdsKept a) := by
  have hc := covered_of_reachable h
  have hl := appliedLive_of_reachable h
  refine ⟨hc.noneDead hl, fun a s' hs => ⟨fun hd => (hl.step_iff hs).mp hd.2.1, fun hok => ?_⟩⟩
  exact (hc.step hs).noneDead ((hl.step_iff hs).mpr hok)

instance (s : Sys) : ∀ a, Decidable (s.IdsKept a)
  | .kernel (.takeover t _) => inferInstanceAs (Decidable (t ∉ s.applied))
  | .kernel (.clone _ _) => isTrue trivial
  | .kernel (.spawn _ _) => isTrue trivial
  | .kernel (.exec _) => isTrue trivial
  | .kernel (.rename _ _ _) => isTrue trivial
  | .kernel (.exit _) => isTrue trivial
  | .dispatch _ => isTrue trivial
  | .scan _ _ _ => isTrue trivial
  | .sync _ => isTrue trivial
  | .job => isTrue trivial

/-- A process of the app creates a thread, and both are bound. -/
def workerBound : List Action :=
  [renames 100 "com.a", .dispatch allAlive, clones 100 101, .dispatch allAlive]

/-- A worker that is not in `APPLIED_MAP` takes over the id of its group, and is bound under it. -/
theorem no_dead_thread_cached_taken_over :
    ∃ s, Runs.Steps (step someLayout) IdsKept (oneProcess "zygote".toList) s ∧ 100 ∈ s.cache.tasks ∧ s.NoneDead ∧
      ∀ a s', step someLayout s a = some s' → (s'.NoneDead ↔ s.IdsKept a) := by
  obtain ⟨s, hs, hb⟩ := Runs.exists_checkedRun (step someLayout) IdsKept (oneProcess "zygote".toList)
    [clones 100 101, .kernel (.exit 100), .kernel (.takeover 101 100), renames 100 "com.a", .kernel (.exec 100),
      .dispatch allAlive, .dispatch allAlive]
    (fun s => decide (100 ∈ s.cache.tasks)) (by decide +kernel)
  exact ⟨s, hs, of_decide_eq_true hb, no_dead_thread_cached someLayout s ⟨_, oneProcess_init _, hs⟩⟩

/-- The bound worker 101 runs `sh` by an `execve`: it becomes the thread 100, and 101 stays bound and
in the map, with no event on its way. -/
theorem taken_over_cached :
    ∃ s, Runs.run (step someLayout) (oneProcess "zygote".toList)
        (workerBound ++ [.kernel (.exit 100), .dispatch allAlive, .kernel (.takeover 101 100), renames 100 "sh",
          .kernel (.exec 100)]) = some s ∧
      s.queue = [] ∧ s.todo = [] ∧ 101 ∈ s.cache.tasks ∧ 101 ∈ s.applied ∧ 101 ∉ s.threads ∧ ¬ s.NoneDead := by
  obtain ⟨s, hs, hp⟩ := Runs.exists_run (step someLayout) (oneProcess "zygote".toList)
    (workerBound ++ [.kernel (.exit 100), .dispatch allAlive, .kernel (.takeover 101 100), renames 100 "sh",
      .kernel (.exec 100)])
    (fun s => decide (s.queue = [] ∧ s.todo.isEmpty ∧ 101 ∈ s.cache.tasks ∧ 101 ∈ s.applied ∧ 101 ∉ s.threads))
    (by decide +kernel)
  obtain ⟨hq, ht, hb, ha, hn⟩ := of_decide_eq_true hp
  exact ⟨s, hs, hq, List.isEmpty_iff.mp ht, hb, ha, hn, fun hd => hn (hd.2.1 101 ha)⟩

end Sys

end AetherOptExt
