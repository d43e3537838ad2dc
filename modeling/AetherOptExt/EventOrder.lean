import AetherOptExt.Daemon

/-! # Events of different processes are independent

An event concerns one thread of one process.  What the three maps hold about it is `heldOf`:
the package of the process, the binding of the thread and its entry in `APPLIED_MAP`.
`event_dispatch` computes the new values from the old ones and from whether the process has
another bound thread, and `Held.dispatch` is that function.  Everything else in the maps is
left alone (`heldOf_frame`, `siblings_frame`), although the purge in `task_del` inspects all
tasks and goes by the pid stored in the removed one.

Two events of different threads and processes therefore commute (`eventDispatch_comm`).
Maps are compared through `lookup`; the order in which a hash map is iterated is not part of
its value. -/

namespace AetherOptExt

/-- What the maps hold about the thread and the process of an event. -/
structure Held where
  pkg : Option (Str × Bool)
  task : Option TaskEntry
  word : Option (BitVec 64)
deriving DecidableEq

/-- Two states of the cache and of `APPLIED_MAP` hold the same entries. -/
structure SameMaps (s s' : ProcCache × AppliedMap) : Prop where
  pkgs : ∀ q, s.1.pkgs.lookup q = s'.1.pkgs.lookup q
  tasks : ∀ t, s.1.tasks.lookup t = s'.1.tasks.lookup t
  applied : ∀ t, s.2.lookup t = s'.2.lookup t

/-- If the event's thread is bound, then as a thread of the event's process. -/
def OwnThread (pc : ProcCache) (ev : ProcEvent) : Prop :=
  ∀ e, pc.tasks.lookup ev.tid = some e → e.pid = ev.pid

/-- The part of the maps an event is about. -/
def heldOf (s : ProcCache × AppliedMap) (ev : ProcEvent) : Held :=
  ⟨s.1.pkgs.lookup ev.pid, s.1.tasks.lookup ev.tid, s.2.lookup ev.tid⟩

/-- Is another thread of the event's process bound? -/
def siblings (pc : ProcCache) (ev : ProcEvent) : Bool :=
  KeyMap.anyValue (pc.tasks.erase ev.tid) (fun e => e.pid == ev.pid)

namespace Held

/-- `task_del` and `applied_del` of the event's thread. -/
def del (sib : Bool) (h : Held) : Held :=
  { pkg := if h.task.isSome && !sib then none else h.pkg, task := none, word := none }

/-- `task_apply` of the event's thread under the package `p`. -/
def apply (env : Env) (ev : ProcEvent) (cfg : AppConfig) (p : Str × Bool) (h : Held) : Held :=
  match threadAffinity env.createDir p.1 (eventName ev p) cfg cfg.topo with
  | none => { h with pkg := some p }
  | some r =>
      if !r.isThreadRule && h.task.any (fun old => old.isThreadRule) then { h with pkg := some p }
      else if affinitySet env ev.tid r.cpus r.cpusetDir cfg.topo then { h with pkg := some p, task := none }
      else ⟨some p, some (ProcCache.entryOf ev.pid r), some (r.cpus.word 0)⟩

/-- `event_dispatch` on the entries the event is about. -/
def dispatch (env : Env) (ev : ProcEvent) (cfg : AppConfig) (sib : Bool) (h : Held) : Held :=
  let kept := if ev.eventType = eventExec then none else h.pkg
  if ev.eventType = eventExit then ({ h with pkg := if ev.tid = ev.pid then none else h.pkg }).del sib
  else if Binds ev then
    match kept.or ((commToPkg (commStr ev.comm) cfg).map (fun pkg => (pkg, cfg.pkgHasThreadRules pkg))) with
    | some p => h.apply env ev cfg p
    | none => if ev.eventType = eventExec then ({ h with pkg := none }).del sib else h
  else h

end Held

/-! ### Removing the event's thread -/

section

variable {pc : ProcCache} {tid pid q : Tid}

theorem taskDel_pkgs_ne (h : ∀ e, pc.tasks.lookup tid = some e → e.pid ≠ q) :
    (pc.taskDel tid).pkgs.lookup q = pc.pkgs.lookup q := by
  unfold ProcCache.taskDel ProcCache.pkgsPurge
  cases ht : pc.tasks.lookup tid with
  | none => rfl
  | some e =>
      dsimp only
      split_ifs
      · rfl
      · rw [KeyMap.lookup_erase, if_neg (h e ht).symm]

theorem taskDel_pkgs_own (h : ∀ e, pc.tasks.lookup tid = some e → e.pid = pid) :
    (pc.taskDel tid).pkgs.lookup pid =
      if (pc.tasks.lookup tid).isSome && !KeyMap.anyValue (pc.tasks.erase tid) (fun e => e.pid == pid) then none
      else pc.pkgs.lookup pid := by
  unfold ProcCache.taskDel ProcCache.pkgsPurge
  cases ht : pc.tasks.lookup tid with
  | none => simp
  | some e =>
      have he : e.pid = pid := h e ht
      cases ha : KeyMap.anyValue (pc.tasks.erase tid) (fun e => e.pid == pid) with
      | true => simp [he, ha]
      | false => simp [he, ha]

/-- Removing the event's thread, on the entries the event is about. -/
theorem heldOf_taskDel {ev : ProcEvent} (h : OwnThread pc ev) (applied : AppliedMap) :
    heldOf (pc.taskDel ev.tid, appliedDel applied ev.tid) ev =
      (heldOf (pc, applied) ev).del (siblings pc ev) := by
  unfold heldOf Held.del siblings appliedDel
  rw [taskDel_pkgs_own h, ProcCache.taskDel_tasks, KeyMap.lookup_erase, if_pos rfl, KeyMap.lookup_erase, if_pos rfl]

end

/-! ### The entries an event is about -/

variable {env : Env} {ev e₁ e₂ : ProcEvent} {cfg : AppConfig} {pc : ProcCache} {applied : AppliedMap}

theorem heldOf_applyCase {p : Str × Bool} {pc₁ : ProcCache} {out : Bool × ProcCache × AppliedMap}
    (ht : pc₁.tasks = pc.tasks) (hp : pc₁.pkgs.lookup ev.pid = some p)
    (hc : ProcCache.ApplyCase env.createDir pc₁ ev.tid ev.pid p.1 (eventName ev p) cfg
      (eventAffinityApply env cfg.topo) applied out) :
    heldOf out.2 ev = (heldOf (pc, applied) ev).apply env ev cfg p := by
  have hkeeps : ∀ r : AffinityResult, pc₁.keeps ev.tid r =
      (!r.isThreadRule && (heldOf (pc, applied) ev).task.any (fun old => old.isThreadRule)) := by
    intro r
    unfold ProcCache.keeps heldOf
    rw [ht]
  unfold Held.apply
  cases hc with
  | unruled h =>
      rw [h]
      simp only [heldOf, hp, ht]
  | @kept r h hk =>
      rw [hkeeps] at hk
      simp only [h, hk, if_true]
      simp only [heldOf, hp, ht]
  | @gone r h hk hd =>
      rw [hkeeps] at hk
      have ha := eventAffinityApply_of_dead hd
      rw [eventAffinityApply_fst] at hd
      simp only [h, hk, hd, Bool.false_eq_true, if_false, if_true]
      simp only [heldOf, hp, ha, KeyMap.lookup_erase, if_true]
  | @bound r h hk hd =>
      rw [hkeeps] at hk
      have ha := eventAffinityApply_of_alive hd
      rw [eventAffinityApply_fst] at hd
      simp only [h, hk, hd, Bool.false_eq_true, if_false]
      simp only [heldOf, hp, ha, appliedSet, KeyMap.lookup_insert, if_true]

/-- **What an event does to the entries it is about** depends on these entries alone, and on
whether the process has another bound thread. -/
theorem heldOf_eventDispatch (h : OwnThread pc ev) :
    heldOf (eventDispatch env ev cfg pc applied) ev =
      (heldOf (pc, applied) ev).dispatch env ev cfg (siblings pc ev) := by
  have hc := eventDispatch_case env ev cfg pc applied
  generalize eventDispatch env ev cfg pc applied = out at hc ⊢
  unfold Held.dispatch
  cases hc with
  | exit he =>
      rw [if_pos he]
      by_cases hm : ev.tid = ev.pid
      · rw [if_pos hm, @heldOf_taskDel { pc with pkgs := pc.pkgs.erase ev.pid } ev h]
        simp only [heldOf, AList.lookup_erase, hm, if_true]
        rfl
      · rw [if_neg hm, heldOf_taskDel h]
        simp only [hm, if_false]
  | dropped he hr =>
      have hb : Binds ev := .inl he
      unfold resolved at hr
      rw [if_neg hb.ne_exit, if_pos hb]
      simp only [he, if_true] at hr ⊢
      rw [hr, @heldOf_taskDel { pc with pkgs := pc.pkgs.erase ev.pid } ev h]
      simp only [heldOf, AList.lookup_erase]
      rfl
  | unresolved he hr =>
      have hb : Binds ev := he.elim (fun h => .inr (.inl h)) (fun h => .inr (.inr h))
      have hne : ev.eventType ≠ eventExec := by
        rcases he with he | he
        · rw [he]; decide
        · rw [he]; decide
      unfold resolved at hr
      rw [if_neg hb.ne_exit, if_pos hb]
      simp only [hne, if_false] at hr ⊢
      simp only [heldOf, hr]
  | @applied p pc₁ out hb hr ht hp hc =>
      unfold resolved at hr
      rw [if_neg hb.ne_exit, if_pos hb]
      simp only [heldOf] at hr ⊢
      rw [hr]
      exact heldOf_applyCase ht ((hp ev.pid).trans (if_pos rfl)) hc
  | ignored he hb => rw [if_neg he, if_neg hb]

/-! ### Everything else -/

theorem dispatch_applied_ne {out : ProcCache × AppliedMap} (hc : DispatchCase env ev cfg pc applied out) {t : Tid}
    (ht : t ≠ ev.tid) : out.2.lookup t = applied.lookup t := by
  have herase : (appliedDel applied ev.tid).lookup t = applied.lookup t := AList.lookup_erase_ne ht
  cases hc with
  | exit => exact herase
  | dropped => exact herase
  | unresolved => rfl
  | ignored => rfl
  | applied _ _ _ _ ha =>
      cases ha with
      | unruled => rfl
      | kept => rfl
      | gone _ _ hd => rw [eventAffinityApply_of_dead hd]
      | bound _ _ hd =>
          rw [eventAffinityApply_of_alive hd]
          exact AList.lookup_insert_ne ht

theorem dispatch_pkgs_ne {out : ProcCache × AppliedMap} (hc : DispatchCase env ev cfg pc applied out)
    (h : OwnThread pc ev) {q : Tid} (hq : q ≠ ev.pid) : out.1.pkgs.lookup q = pc.pkgs.lookup q := by
  have hne : ∀ e, pc.tasks.lookup ev.tid = some e → e.pid ≠ q := fun e he hp => hq (hp.symm.trans (h e he))
  have herase : (pc.pkgs.erase ev.pid).lookup q = pc.pkgs.lookup q := AList.lookup_erase_ne hq
  cases hc with
  | exit =>
      split_ifs
      · exact (@taskDel_pkgs_ne { pc with pkgs := pc.pkgs.erase ev.pid } ev.tid q hne).trans herase
      · exact taskDel_pkgs_ne hne
  | dropped => exact (@taskDel_pkgs_ne { pc with pkgs := pc.pkgs.erase ev.pid } ev.tid q hne).trans herase
  | unresolved => rfl
  | ignored => rfl
  | applied _ _ _ hp ha => rw [ProcCache.taskApply_pkgs ha, hp, if_neg hq]

/-- A bound thread of the event's process after the event was one before, or is the event's. -/
theorem OwnThread.dispatch {out : ProcCache × AppliedMap} (hc : DispatchCase env ev cfg pc applied out)
    (h : OwnThread pc ev) : OwnThread out.1 ev := by
  have herase : ∀ (m : KeyMap Tid TaskEntry) e, (m.erase ev.tid).lookup ev.tid = some e → e.pid = ev.pid := by
    intro m e he
    rw [AList.lookup_erase] at he
    cases he
  cases hc with
  | exit =>
      intro e he
      rw [ProcCache.taskDel_tasks] at he
      exact herase _ e he
  | dropped =>
      intro e he
      rw [ProcCache.taskDel_tasks] at he
      exact herase _ e he
  | unresolved => exact h
  | ignored => exact h
  | applied _ _ ht _ ha =>
      cases ha with
      | unruled =>
          intro e he
          rw [ht] at he
          exact h e he
      | kept =>
          intro e he
          rw [ht] at he
          exact h e he
      | gone => exact herase _
      | bound =>
          intro e he
          rw [AList.lookup_insert] at he
          obtain rfl := Option.some.inj he
          rfl

/-- Events of other threads and processes leave what an event is about alone. -/
theorem heldOf_frame (h : OwnThread pc e₂) (ht : e₁.tid ≠ e₂.tid) (hp : e₁.pid ≠ e₂.pid) :
    heldOf (eventDispatch env e₂ cfg pc applied) e₁ = heldOf (pc, applied) e₁ := by
  have hc := eventDispatch_case env e₂ cfg pc applied
  unfold heldOf
  rw [dispatch_pkgs_ne hc h hp, dispatch_tasks_ne hc ht.symm, dispatch_applied_ne hc ht]

theorem siblings_frame (h : OwnThread pc e₂) (hp : e₁.pid ≠ e₂.pid) :
    siblings (eventDispatch env e₂ cfg pc applied).1 e₁ = siblings pc e₁ := by
  have hc := eventDispatch_case env e₂ cfg pc applied
  have h' := h.dispatch hc
  unfold siblings
  rw [Bool.eq_iff_iff, KeyMap.anyValue_iff, KeyMap.anyValue_iff]
  refine exists_congr fun u => exists_congr fun e => and_congr_left fun he => ?_
  rw [beq_iff_eq] at he
  rw [KeyMap.lookup_erase, KeyMap.lookup_erase]
  split_ifs with hu
  · rfl
  · rcases eq_or_ne u e₂.tid with rfl | hu₂
    -- the other event's thread is bound to its own process, before and after
    · constructor
      · intro hl
        exact absurd (he.symm.trans (h' e hl)) hp
      · intro hl
        exact absurd (he.symm.trans (h e hl)) hp
    · rw [dispatch_tasks_ne hc hu₂.symm]

theorem OwnThread.frame (h : OwnThread pc e₁) (ht : e₁.tid ≠ e₂.tid) :
    OwnThread (eventDispatch env e₂ cfg pc applied).1 e₁ := by
  intro e he
  rw [dispatch_tasks_ne (eventDispatch_case env e₂ cfg pc applied) ht.symm] at he
  exact h e he

/-! ### Two events -/

/-- After both events, in either order, the first one's entries are what it makes of them. -/
theorem heldOf_swap {env₁ env₂ : Env} (h₁ : OwnThread pc e₁) (h₂ : OwnThread pc e₂) (ht : e₁.tid ≠ e₂.tid)
    (hp : e₁.pid ≠ e₂.pid) {s s' : ProcCache × AppliedMap} (hs : s = eventDispatch env₁ e₁ cfg pc applied)
    (hs' : s' = eventDispatch env₂ e₂ cfg pc applied) :
    heldOf (eventDispatch env₂ e₂ cfg s.1 s.2) e₁ = heldOf (eventDispatch env₁ e₁ cfg s'.1 s'.2) e₁ := by
  have hown : OwnThread s.1 e₂ := by
    rw [hs]
    exact h₂.frame ht.symm
  have hown' : OwnThread s'.1 e₁ := by
    rw [hs']
    exact h₁.frame ht
  have hheld : heldOf (s'.1, s'.2) e₁ = heldOf (pc, applied) e₁ := by
    rw [hs']
    exact heldOf_frame h₂ ht hp
  have hsib : siblings s'.1 e₁ = siblings pc e₁ := by
    rw [hs']
    exact siblings_frame h₂ hp
  rw [heldOf_frame hown ht hp, heldOf_eventDispatch hown', hheld, hsib, hs]
  exact heldOf_eventDispatch h₁

/-- **Events of different processes commute.**  `env` answers for each thread; the events may
be of any types. -/
theorem eventDispatch_comm (env : Tid → Env) (cfg : AppConfig) (pc : ProcCache) (applied : AppliedMap)
    (e₁ e₂ : ProcEvent) (ht : e₁.tid ≠ e₂.tid) (hp : e₁.pid ≠ e₂.pid) (h₁ : OwnThread pc e₁)
    (h₂ : OwnThread pc e₂) :
    SameMaps
      (let s := eventDispatch (env e₁.tid) e₁ cfg pc applied
       eventDispatch (env e₂.tid) e₂ cfg s.1 s.2)
      (let s := eventDispatch (env e₂.tid) e₂ cfg pc applied
       eventDispatch (env e₁.tid) e₁ cfg s.1 s.2) := by
  have hheld₁ := @heldOf_swap e₁ e₂ cfg pc applied (env e₁.tid) (env e₂.tid) h₁ h₂ ht hp _ _ rfl rfl
  have hheld₂ := @heldOf_swap e₂ e₁ cfg pc applied (env e₂.tid) (env e₁.tid) h₂ h₁ ht.symm hp.symm _ _ rfl rfl
  have hc₁ := eventDispatch_case (env e₁.tid) e₁ cfg pc applied
  have hc₂ := eventDispatch_case (env e₂.tid) e₂ cfg pc applied
  have hc₁₂ := eventDispatch_case (env e₂.tid) e₂ cfg (eventDispatch (env e₁.tid) e₁ cfg pc applied).1
    (eventDispatch (env e₁.tid) e₁ cfg pc applied).2
  have hc₂₁ := eventDispatch_case (env e₁.tid) e₁ cfg (eventDispatch (env e₂.tid) e₂ cfg pc applied).1
    (eventDispatch (env e₂.tid) e₂ cfg pc applied).2
  refine ⟨fun q => ?_, fun t => ?_, fun t => ?_⟩
  · rcases eq_or_ne q e₁.pid with rfl | hq₁
    · exact congrArg Held.pkg hheld₁
    rcases eq_or_ne q e₂.pid with rfl | hq₂
    · exact congrArg Held.pkg hheld₂.symm
    rw [dispatch_pkgs_ne hc₁₂ (h₂.frame ht.symm) hq₂, dispatch_pkgs_ne hc₁ h₁ hq₁,
      dispatch_pkgs_ne hc₂₁ (h₁.frame ht) hq₁, dispatch_pkgs_ne hc₂ h₂ hq₂]
  · rcases eq_or_ne t e₁.tid with rfl | ht₁
    · exact congrArg Held.task hheld₁
    rcases eq_or_ne t e₂.tid with rfl | ht₂
    · exact congrArg Held.task hheld₂.symm
    rw [dispatch_tasks_ne hc₁₂ ht₂.symm, dispatch_tasks_ne hc₁ ht₁.symm, dispatch_tasks_ne hc₂₁ ht₁.symm,
      dispatch_tasks_ne hc₂ ht₂.symm]
  · rcases eq_or_ne t e₁.tid with rfl | ht₁
    · exact congrArg Held.word hheld₁
    rcases eq_or_ne t e₂.tid with rfl | ht₂
    · exact congrArg Held.word hheld₂.symm
    rw [dispatch_applied_ne hc₁₂ ht₂, dispatch_applied_ne hc₁ ht₁, dispatch_applied_ne hc₂₁ ht₁,
      dispatch_applied_ne hc₂ ht₂]

/-- The main threads of two processes `com.a`, bound by the package's rule. -/
def twoBound : ProcCache where
  pkgs := ((∅ : KeyMap Tid (Str × Bool)).insert 10 ("com.a".toList, false) : KeyMap Tid (Str × Bool)).insert 20
    ("com.a".toList, false)
  tasks := ((∅ : KeyMap Tid TaskEntry).insert 10 ⟨10, fromRange "0-3".toList, [], false⟩).insert 20
    ⟨20, fromRange "0-3".toList, [], false⟩

def twoApplied : AppliedMap := ((∅ : AppliedMap).insert 10 15).insert 20 15

/-- The process 10 has created the thread 11. -/
def createdIn10 : ProcEvent := ⟨10, 11, Comm.ofText "worker".toList, eventFork⟩

/-- The process 20 has exited. -/
def exitOf20 : ProcEvent := ⟨20, 20, Comm.zero, eventExit⟩

/-- A FORK in one process and an EXIT in another, both of them bound: 11 is bound and 20 is not. -/
theorem eventDispatch_comm_fork_exit :
    (let s := eventDispatch allAlive createdIn10 oneRule twoBound twoApplied
     (eventDispatch allAlive exitOf20 oneRule s.1 s.2).1.tasks.keys = [11, 10]) ∧
    SameMaps
      (let s := eventDispatch allAlive createdIn10 oneRule twoBound twoApplied
       eventDispatch allAlive exitOf20 oneRule s.1 s.2)
      (let s := eventDispatch allAlive exitOf20 oneRule twoBound twoApplied
       eventDispatch allAlive createdIn10 oneRule s.1 s.2) := by
  refine ⟨by decide +kernel, ?_⟩
  have hnew : OwnThread twoBound createdIn10 := by
    intro e he
    cases he
  have hold : OwnThread twoBound exitOf20 := by
    intro e he
    obtain rfl := Option.some.inj he
    rfl
  exact eventDispatch_comm (fun _ => allAlive) oneRule twoBound twoApplied createdIn10 exitOf20 (by decide)
    (by decide) hnew hold

end AetherOptExt
