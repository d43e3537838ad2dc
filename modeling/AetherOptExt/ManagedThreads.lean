import AetherOptExt.DeadThreads
import AetherOptExt.EventOrder

/-! # The threads in `APPLIED_MAP` are bound

The fork hook enters the child of a tracked thread into `APPLIED_MAP` before the daemon knows of
it.  The entry is provisional: the handler of the FORK event is to bind the child or to remove
the entry.  It binds the child when its process resolves to a package and the rules have an
answer, and otherwise does nothing; of the later events of the thread, RENAME does the same,
EXEC removes the entry when there is no package, and EXIT removes it (`settled`).

A thread may be in the map without being live, when it has taken over the id of its group; the
handler then finds it dead, and removes its binding but not its entry in the map.

The invariant `Managed` says where the entries come from in every interleaving: a thread in the
map is bound, or an event of it is on its way, or its deletion is pending.  Only the dispatch of
a thread's last event, or a scan that comes to such a dead thread, can break it, and `Settles`
says when they do not. -/

namespace AetherOptExt

namespace Sys

/-- An event of the thread waits in the queue. -/
def Queued (s : Sys) (t : Tid) : Prop := ∃ e ∈ s.queue, e.1.tid = t

/-- What the rules answer for the thread of an event that can bind. -/
def answer (env : Env) (cfg : AppConfig) (pc : ProcCache) (ev : ProcEvent) : Option AffinityResult :=
  if Binds ev then (resolved pc cfg ev).bind (fun p => threadAffinity env.createDir p.1 (eventName ev p) cfg cfg.topo)
  else none

/-- The event removes its thread from `APPLIED_MAP`; or the rules have no answer and the thread is
bound; or they have one, and the thread is live or keeps the binding that it has. -/
def settled (env : Env) (live : Tid → Bool) (cfg : AppConfig) (pc : ProcCache) (ev : ProcEvent) : Bool :=
  decide (ev.eventType = eventExit) || (decide (ev.eventType = eventExec) && (resolved pc cfg ev).isNone) ||
    match answer env cfg pc ev with
    | none => decide (ev.tid ∈ pc.tasks)
    | some r => live ev.tid || pc.keeps ev.tid r

/-- The oldest event settles its thread, when this is in `APPLIED_MAP` and has no other event coming. -/
def settles (env : Env) (s : Sys) : List (ProcEvent × Stamp) → Prop
  | [] => True
  | (ev, _) :: q =>
      ev.tid ∈ s.applied → (∀ e ∈ q, e.1.tid ≠ ev.tid) → settled env s.live s.cfg s.cache ev = true

/-- The scan does not come to a thread that is bound and in `APPLIED_MAP`, is not live, and has no event
coming, with an answer that would replace its binding. -/
def bindSettles (s : Sys) : Job → Prop
  | .bind _ pkg htr _ x =>
      x.tid ∈ s.applied → x.tid ∈ s.cache.tasks → s.live x.tid = false → (∀ e ∈ s.queue, e.1.tid ≠ x.tid) →
        (threadAffinity x.env.createDir pkg (ProcCache.threadName htr true (scanName htr x.comm)) s.cfg s.cfg.topo).all
          (s.cache.keeps x.tid) = true
  | _ => True

/-- No event is dispatched that is the last of an unsettled thread, and no scan unbinds a thread of the
map that is not live. -/
def Settles (s : Sys) : Action → Prop
  | .dispatch env => settles env s s.queue
  | .job => ∀ j ∈ s.todo.head?, s.bindSettles j
  | _ => True

instance (env : Env) (s : Sys) : ∀ q, Decidable (settles env s q)
  | [] => inferInstanceAs (Decidable True)
  | (ev, _) :: q => inferInstanceAs (Decidable (ev.tid ∈ s.applied → (∀ e ∈ q, e.1.tid ≠ ev.tid) →
      settled env s.live s.cfg s.cache ev = true))

instance (s : Sys) : ∀ j, Decidable (s.bindSettles j)
  | .bind _ pkg htr _ x => inferInstanceAs (Decidable (x.tid ∈ s.applied → x.tid ∈ s.cache.tasks →
      s.live x.tid = false → (∀ e ∈ s.queue, e.1.tid ≠ x.tid) → Option.all (s.cache.keeps x.tid)
        (threadAffinity x.env.createDir pkg (ProcCache.threadName htr true (scanName htr x.comm)) s.cfg s.cfg.topo) =
          true))
  | .del _ => isTrue trivial
  | .look _ => isTrue trivial
  | .record _ _ _ _ => isTrue trivial
  | .probe _ _ => isTrue trivial
  | .reap => isTrue trivial

instance (s : Sys) : ∀ a, Decidable (s.Settles a)
  | .dispatch env => inferInstanceAs (Decidable (settles env s s.queue))
  | .job => inferInstanceAs (Decidable (∀ j ∈ s.todo.head?, s.bindSettles j))
  | .kernel _ => isTrue trivial
  | .scan _ _ _ => isTrue trivial
  | .sync _ => isTrue trivial

/-- A thread in `APPLIED_MAP` is bound, or has an event coming, or is about to be deleted. -/
def Managed (s : Sys) : Prop :=
  ∀ t ∈ s.applied, t ∈ s.cache.tasks ∨ s.Queued t ∨ Job.del t ∈ s.todo

theorem managed_init {s : Sys} (h : s.Init) : s.Managed := by
  intro t ht
  rw [h.applied] at ht
  exact absurd ht (AList.notMem_empty t)

/-! ### Kernel actions -/

/-- A thread that a kernel action enters into `APPLIED_MAP` has an event reported. -/
theorem KernelCase.mem_applied {s s' : Sys} {a : KernelAction} (h : KernelCase s a s') {t : Tid}
    (ht : t ∈ s'.applied) : t ∈ s.applied ∨ s'.Queued t := by
  have hfork : ∀ (u c : Tid) (p child : Thread), t ∈ (s.forked u c p child).applied →
      t ∈ s.applied ∨ (s.forked u c p child).Queued t := by
    intro u c p child ht
    change t ∈ (if u ∈ s.applied then s.applied.insert c 0 else s.applied) at ht
    split_ifs at ht with hu
    · rcases KeyMap.mem_insert.mp ht with rfl | ht
      · exact Or.inr ⟨_, mem_report.mpr (Or.inr ⟨Or.inl hu, rfl⟩), rfl⟩
      · exact Or.inl ht
    · exact Or.inl ht
  cases h with
  | clone => exact hfork _ _ _ _ ht
  | spawn => exact hfork _ _ _ _ ht
  | exec => exact Or.inl ht
  | takeover => exact Or.inl ht
  | rename => exact Or.inl ht
  | @exit u x hu =>
      change t ∈ (if u ∈ s.applied then s.applied.erase u else s.applied) at ht
      split_ifs at ht
      · exact Or.inl (AList.mem_erase.mp ht).2
      · exact Or.inl ht

theorem Managed.kernel {s s' : Sys} {a : KernelAction} (h : s.Managed) (hk : KernelCase s a s') : s'.Managed := by
  obtain ⟨hcache, htodo, hqueue, -⟩ := hk.frame
  intro t ht
  rw [hcache, htodo]
  rcases hk.mem_applied ht with ha | hf
  · rcases h t ha with hb | ⟨e, he, het⟩ | hd
    · exact Or.inl hb
    · exact Or.inr (Or.inl ⟨e, hqueue e he, het⟩)
    · exact Or.inr (Or.inr hd)
  · exact Or.inr (Or.inl hf)

/-! ### The daemon's writes -/

/-- `task_apply` binds every thread that it enters into `APPLIED_MAP`, and unbinds only its own, when
that is not live and the answer replaces its binding. -/
theorem mem_tasks_apply {env : Env} {live : Tid → Bool} {pc : ProcCache} {tid pid : Tid} {pkg name : Str}
    {cfg : AppConfig} {applied : AppliedMap} {out : Bool × ProcCache × AppliedMap}
    (h : ProcCache.ApplyCase (env.over live).createDir pc tid pid pkg name cfg
      (eventAffinityApply (env.over live) cfg.topo) applied out) {t : Tid} (ht : t ∈ out.2.2) :
    t ∈ out.2.1.tasks ∨ (t ∈ applied ∧ t ∉ pc.tasks) ∨
      (t = tid ∧ t ∈ applied ∧ live tid = false ∧ Rebinds env.createDir pc cfg tid pkg name) := by
  have hkept : t ∈ applied → t ∈ pc.tasks ∨ (t ∈ applied ∧ t ∉ pc.tasks) := fun ha =>
    (em (t ∈ pc.tasks)).imp_right fun hn => ⟨ha, hn⟩
  rcases applyCase_over h with ⟨-, ho⟩ | ⟨hr, ⟨hdead, ho⟩ | ⟨r, w, -, ho⟩⟩
  · rw [ho] at ht ⊢
    exact (hkept ht).imp_right Or.inl
  · rw [ho] at ht ⊢
    rcases eq_or_ne t tid with rfl | hne
    · exact Or.inr (Or.inr ⟨rfl, ht, hdead, hr⟩)
    · exact (hkept ht).imp (fun hb => AList.mem_erase.mpr ⟨hne, hb⟩) Or.inl
  · rw [ho] at ht ⊢
    rcases eq_or_ne t tid with rfl | hne
    · exact Or.inl (KeyMap.mem_insert.mpr (Or.inl rfl))
    · refine (hkept ((mem_appliedSet.mp ht).resolve_left hne)).imp (fun hb => ?_) Or.inl
      exact KeyMap.mem_insert.mpr (Or.inr (AList.mem_erase.mpr ⟨hne, hb⟩))

section

variable {env : Env} {live : Tid → Bool} {ev : ProcEvent} {cfg : AppConfig} {pc : ProcCache} {applied : AppliedMap}
  {out : ProcCache × AppliedMap}

/-- After an event its thread is bound when it is in `APPLIED_MAP`, unless it was in the map before. -/
theorem dispatch_mem_tasks (hc : DispatchCase (env.over live) ev cfg pc applied out) (ht : ev.tid ∈ out.2) :
    ev.tid ∈ out.1.tasks ∨ ev.tid ∈ applied := by
  cases hc with
  | exit => exact absurd rfl (mem_appliedDel.mp ht).1
  | dropped => exact absurd rfl (mem_appliedDel.mp ht).1
  | unresolved => exact Or.inr ht
  | ignored => exact Or.inr ht
  | applied _ _ _ _ ha =>
      exact (mem_tasks_apply ha ht).imp_right fun h => h.elim And.left fun h => h.2.1

/-- The rules have no answer for an event that does not resolve. -/
theorem answer_unresolved (hr : resolved pc cfg ev = none) : answer env cfg pc ev = none := by
  unfold answer
  rw [hr]
  split_ifs
  · rfl
  · rfl

/-- An event leaves its thread, when that is in `APPLIED_MAP`, in the map without binding it, unless it
settles it. -/
theorem dispatch_settled_iff (hc : DispatchCase (env.over live) ev cfg pc applied out) (ha : ev.tid ∈ applied) :
    (ev.tid ∈ out.2 → ev.tid ∈ out.1.tasks) ↔ settled env live cfg pc ev = true := by
  -- without an answer nothing changes
  have hidle : ev.eventType ≠ eventExit → ¬ (ev.eventType = eventExec ∧ (resolved pc cfg ev).isNone = true) →
      answer env cfg pc ev = none →
      ((ev.tid ∈ applied → ev.tid ∈ pc.tasks) ↔ settled env live cfg pc ev = true) := by
    intro hx he hn
    unfold settled
    rw [hn, Bool.or_eq_true, Bool.or_eq_true, Bool.and_eq_true, decide_eq_true_eq, decide_eq_true_eq,
      decide_eq_true_eq]
    exact ⟨fun h => Or.inr (h ha), fun h _ => h.resolve_left fun h => h.elim hx he⟩
  cases hc with
  | exit h => exact iff_of_true (fun hm => absurd rfl (mem_appliedDel.mp hm).1) (by simp [settled, h])
  | dropped h hr => exact iff_of_true (fun hm => absurd rfl (mem_appliedDel.mp hm).1) (by simp [settled, h, hr])
  | ignored h hb => exact hidle h (fun hx => hb (Or.inl hx.1)) (if_neg hb)
  | unresolved h hr =>
      refine hidle (Binds.ne_exit (Or.inr h)) (fun hx => ?_) (answer_unresolved hr)
      rw [hx.1] at h
      exact absurd h (by decide)
  | @applied p pc₁ out hb hr htasks _ hcase =>
      have hsome : ¬ (ev.eventType = eventExec ∧ (resolved pc cfg ev).isNone = true) := by
        rw [hr]
        exact fun hx => Bool.false_ne_true hx.2
      have hans : answer env cfg pc ev = threadAffinity env.createDir p.1 (eventName ev p) cfg cfg.topo := by
        unfold answer
        rw [if_pos hb, hr]
        rfl
      have hkeeps : ∀ r, pc₁.keeps ev.tid r = pc.keeps ev.tid r := fun r => by
        unfold ProcCache.keeps
        rw [htasks]
      have hans' : ∀ r, threadAffinity env.createDir p.1 (eventName ev p) cfg cfg.topo = some r →
          (settled env live cfg pc ev = true ↔ live ev.tid = true ∨ pc₁.keeps ev.tid r = true) := by
        intro r h
        unfold settled
        rw [hans, h, hr, hkeeps, decide_eq_false hb.ne_exit, Option.isNone_some, Bool.and_false, Bool.or_self,
          Bool.false_or, Bool.or_eq_true]
      cases hcase with
      | unruled h =>
          have hi := hidle hb.ne_exit hsome (hans.trans h)
          rw [← htasks] at hi
          exact hi
      | kept h hk =>
          obtain ⟨e, he, -⟩ := ProcCache.keeps_mem hk
          exact iff_of_true (fun _ => KeyMap.mem_of_lookup he) ((hans' _ h).mpr (Or.inr hk))
      | gone h hk hd =>
          refine iff_of_false (fun hx => ?_) fun hs => ?_
          · rw [eventAffinityApply_of_dead hd] at hx
            exact (AList.mem_erase.mp (hx ha)).1 rfl
          · rw [eventAffinityApply_fst, affinitySet_over, Bool.not_eq_true'] at hd
            rcases (hans' _ h).mp hs with hl | hl
            · exact Bool.false_ne_true (hd.symm.trans hl)
            · exact Bool.false_ne_true (hk.symm.trans hl)
      | bound h hk hd =>
          rw [eventAffinityApply_fst, affinitySet_over, Bool.not_eq_false'] at hd
          exact iff_of_true (fun _ => KeyMap.mem_insert.mpr (Or.inl rfl)) ((hans' _ h).mpr (Or.inl hd))

end

/-! ### The daemon's steps -/

theorem Managed.handle {s : Sys} (h : s.Managed) (ht : s.todo = []) {env : Env} {ev : ProcEvent}
    {st : Stamp} {q : List (ProcEvent × Stamp)} (hq : s.queue = (ev, st) :: q)
    (hok : s.Settles (.dispatch env)) : ({ s with queue := q }.handle env ev st).Managed := by
  have hc := eventDispatch_case (env.over s.live) ev s.cfg s.cache s.applied
  have hbefore : ∀ t ∈ s.applied, t ∉ s.cache.tasks → ∃ e ∈ (ev, st) :: q, e.1.tid = t := by
    intro t ha hn
    rcases (h t ha).resolve_left hn with ⟨e, he, het⟩ | hd
    · rw [hq] at he
      exact ⟨e, he, het⟩
    · rw [ht] at hd
      exact absurd hd List.not_mem_nil
  intro t hmem
  rcases eq_or_ne t ev.tid with rfl | hne
  · rcases dispatch_mem_tasks hc hmem with hb | ha
    · exact Or.inl hb
    · by_cases hlater : ∃ e ∈ q, e.1.tid = ev.tid
      · exact Or.inr (Or.inl hlater)
      · unfold Settles at hok
        rw [hq] at hok
        have hset := hok ha fun e he het => hlater ⟨e, he, het⟩
        exact Or.inl ((dispatch_settled_iff hc ha).mpr hset hmem)
  · -- another thread's entries stay, and so do its events
    have happlied : t ∈ s.applied := by
      rw [← AList.lookup_isSome, ← dispatch_applied_ne hc hne, AList.lookup_isSome]
      exact hmem
    by_cases hb : t ∈ s.cache.tasks
    · have hback := congrArg Option.isSome (dispatch_tasks_ne hc hne.symm)
      exact Or.inl (AList.lookup_isSome.mp (hback.trans (AList.lookup_isSome.mpr hb)))
    · obtain ⟨e, he, het⟩ := hbefore t happlied hb
      rcases List.mem_cons.mp he with rfl | he
      · exact absurd het.symm hne
      · exact Or.inr (Or.inl ⟨e, he, het⟩)

theorem Managed.job {s : Sys} (h : s.Managed) {j : Job} {rest : List Job} (ht : s.todo = j :: rest)
    (hok : s.bindSettles j) : ({ s with todo := rest }.runJob j).Managed := by
  -- any other job than a deletion of the thread leaves its deletion pending
  have hother : (∀ t, j ≠ .del t) → ∀ t ∈ s.applied, t ∈ s.cache.tasks ∨ s.Queued t ∨ Job.del t ∈ rest := by
    intro hj t ha
    refine (h t ha).imp_right (Or.imp_right fun hd => ?_)
    rw [ht] at hd
    exact (List.mem_cons.mp hd).resolve_left fun he => hj t he.symm
  cases j with
  | del u =>
      intro t hmem
      obtain ⟨hne, ha⟩ := mem_appliedDel.mp hmem
      refine (h t ha).imp_right (Or.imp_right fun hd => ?_)
      rw [ht] at hd
      exact (List.mem_cons.mp hd).resolve_left fun he => hne (Job.del.inj he)
  | look r =>
      have hidle := hother nofun
      show ({ s with todo := rest }.lookAt r).Managed
      rcases lookAt_case { s with todo := rest } r with he | ⟨k, t, -, -, he⟩
      · rw [he]
        exact hidle
      · rw [he]
        exact fun t ha => (hidle t ha).imp_right (Or.imp_right fun hd => List.mem_append_left _ hd)
  | bind pid pkg htr k x =>
      have hidle := hother nofun
      intro t hmem
      rcases mem_tasks_apply (ProcCache.taskApply_case (x.env.over s.live).createDir s.cache x.tid pid pkg
        (scanName htr x.comm) htr s.cfg true (eventAffinityApply (x.env.over s.live) s.cfg.topo) s.applied)
        hmem with hb | ⟨ha, hn⟩ | ⟨rfl, ha, hdead, r, hr, hk⟩
      · exact Or.inl hb
      · exact Or.inr ((hidle t ha).resolve_left hn)
      · -- a dead thread of the map has lost its binding, so an event of it waits
        rcases hidle x.tid ha with hb | hwait
        · by_cases hqueued : s.Queued x.tid
          · exact Or.inr (Or.inl hqueued)
          · have hall := hok ha hb hdead fun e he het => hqueued ⟨e, he, het⟩
            rw [hr, Option.all_some, hk] at hall
            cases hall
        · exact Or.inr hwait
  | record pid pkg htr k => exact hother nofun
  | probe t env =>
      have hidle := hother nofun
      show ({ s with todo := rest }.probe t env).Managed
      rcases probe_case { s with todo := rest } t env with he | he
      · rw [he]
        exact hidle
      · rw [he]
        exact hidle
  | reap =>
      intro t ha
      rcases hother nofun t ha with hb | hf | hd
      · -- what is unbound is deleted next
        by_cases hdead : t ∈ s.dead
        · exact Or.inr (Or.inr (List.mem_append_left _ (List.mem_map_of_mem hdead)))
        · exact Or.inl (ProcCache.mem_foldl_taskDel.mpr ⟨hb, hdead⟩)
      · exact Or.inr (Or.inl hf)
      · exact Or.inr (Or.inr (List.mem_append_right _ hd))

/-- Every step that settles its event keeps the invariant. -/
theorem Managed.step {L : Layout} {s s' : Sys} {a : Action} (h : s.Managed) (hok : s.Settles a)
    (hs : step L s a = some s') : s'.Managed := by
  cases step_case hs with
  | kernel hk => exact h.kernel hk
  | dispatch ht hq => exact h.handle ht hq hok
  | scan ht =>
      intro t ha
      exact Or.inr (Or.inr (List.mem_append_left _ (List.mem_map_of_mem (AList.mem_keys.mp ha))))
  | sync ht =>
      intro t ha
      rcases h t ha with hb | hf | hd
      · exact Or.inl hb
      · exact Or.inr (Or.inl hf)
      · rw [ht] at hd
        exact absurd hd List.not_mem_nil
  | @job j rest ht =>
      refine h.job ht (hok j ?_)
      rw [ht]
      rfl

theorem managed_of_reachable {L : Layout} {s : Sys} (h : Runs.Reachable (step L) Settles Init s) : s.Managed :=
  h.invariant (fun _ h₀ => managed_init h₀) fun _ _ _ hI hok hs => hI.step hok hs

theorem Managed.bound_of_no_event {s : Sys} (h : s.Managed) (hq : s.queue = []) :
    ∀ t ∈ s.applied, t ∈ s.cache.tasks ∨ Job.del t ∈ s.todo := by
  intro t ha
  rcases h t ha with hb | ⟨e, he, -⟩ | hd
  · exact Or.inl hb
  · rw [hq] at he
    exact absurd he List.not_mem_nil
  · exact Or.inr hd

theorem Managed.bound_of_idle {s : Sys} (h : s.Managed) (hq : s.queue = []) (ht : s.todo = []) :
    ∀ t ∈ s.applied, t ∈ s.cache.tasks := by
  intro t ha
  refine (h.bound_of_no_event hq t ha).resolve_right fun hd => ?_
  rw [ht] at hd
  exact List.not_mem_nil hd

/-- **The threads in `APPLIED_MAP` are bound when no event is waiting**, if the last event of a
thread is dispatched only where it settles it, and no scan unbinds a dead thread of the map; while a
scan or a correction is at work they are bound or about to be deleted.  The dispatch of the last
event of all leaves every thread of the map bound exactly when it settles its thread. -/
theorem applied_bound (L : Layout) (s : Sys) (h : Runs.Reachable (step L) Settles Init s) :
    (s.queue = [] → s.todo = [] → ∀ t ∈ s.applied, t ∈ s.cache.tasks) ∧
    (s.queue = [] → ∀ t ∈ s.applied, t ∈ s.cache.tasks ∨ Job.del t ∈ s.todo) ∧
    ∀ env ev st s', s.queue = [(ev, st)] → step L s (.dispatch env) = some s' →
      ((∀ t ∈ s'.applied, t ∈ s'.cache.tasks) ↔ s.Settles (.dispatch env)) := by
  have hm := managed_of_reachable h
  refine ⟨hm.bound_of_idle, hm.bound_of_no_event, fun env ev st s' hq hs => ?_⟩
  cases step_case hs with
  | @dispatch _ ev' st' q ht hq' =>
      obtain ⟨⟨rfl, rfl⟩, rfl⟩ : (ev' = ev ∧ st' = st) ∧ q = [] := by
        rw [hq', List.cons.injEq, Prod.mk.injEq] at hq
        exact hq
      constructor
      · intro hall
        unfold Settles
        rw [hq]
        intro ha _
        exact (dispatch_settled_iff (eventDispatch_case (env.over s.live) ev' s.cfg s.cache s.applied)
          ha).mp (hall _)
      · intro hok
        exact (hm.handle ht hq' hok).bound_of_idle rfl ht

/-- The main thread is bound and creates a thread, which is bound in turn. -/
theorem applied_bound_cloned :
    ∃ s, Runs.Steps (step someLayout) Settles (appProcess "zygote".toList) s ∧
      101 ∈ s.applied ∧ s.queue = [] ∧ s.todo = [] ∧ ∀ t ∈ s.applied, t ∈ s.cache.tasks := by
  obtain ⟨s, hs, hp⟩ := Runs.exists_checkedRun (step someLayout) Settles (appProcess "zygote".toList)
    [renames 100 "com.a", .dispatch allAlive, clones 100 101, .dispatch allAlive]
    (fun s => decide (101 ∈ s.applied ∧ s.queue = [] ∧ s.todo.isEmpty)) (by decide +kernel)
  obtain ⟨ha, hq, ht⟩ := of_decide_eq_true hp
  have ht := List.isEmpty_iff.mp ht
  exact ⟨s, hs, ha, hq, ht, (applied_bound someLayout s ⟨_, appProcess_init _, hs⟩).1 hq ht⟩

/-- A process of `com.a` forks another one, which takes a name of its own and creates a thread:
the thread stays in `APPLIED_MAP` and is never bound. -/
theorem applied_not_bound :
    ∃ s, Runs.run (step someLayout) (appProcess "zygote".toList)
        [renames 100 "com.a", .dispatch allAlive, .kernel (.spawn 100 200), .dispatch allAlive,
          renames 200 "helper", .dispatch allAlive, clones 200 201, .dispatch allAlive] = some s ∧
      s.queue = [] ∧ s.todo = [] ∧ 201 ∈ s.applied ∧ 201 ∉ s.cache.tasks := by
  obtain ⟨s, hs, hp⟩ := Runs.exists_run (step someLayout) (appProcess "zygote".toList)
    [renames 100 "com.a", .dispatch allAlive, .kernel (.spawn 100 200), .dispatch allAlive,
      renames 200 "helper", .dispatch allAlive, clones 200 201, .dispatch allAlive]
    (fun s => decide (s.queue = [] ∧ s.todo.isEmpty ∧ 201 ∈ s.applied ∧ 201 ∉ s.cache.tasks)) (by decide +kernel)
  obtain ⟨hq, ht, ha, hn⟩ := of_decide_eq_true hp
  exact ⟨s, hs, hq, List.isEmpty_iff.mp ht, ha, hn⟩

end Sys

end AetherOptExt
