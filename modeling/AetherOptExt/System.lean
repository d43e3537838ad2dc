import Mathlib.Logic.Function.Basic
import AetherOptExt.Daemon
import AetherOptExt.Lib.Runs

/-! # Kernel and daemon together

The state of the device in eBPF mode: the live threads, `APPLIED_MAP`, the queue of submitted
events, and the daemon's cache with the work it has begun.  A kernel action runs one thread's
fork, exec, rename or exit together with the BPF program attached to it; the daemon dispatches
the oldest event, or starts a scan or a correction, which it then carries out job by job.
Kernel actions may come between any two daemon steps, so a run is any interleaving.

An event is dispatched, and a thread is bound, without a kernel action in between; the thread
is then reported as exited exactly when it is not live (`affinitySet_over`).

An `execve` first ends the other threads of its group, each of them with its exit hook.  If it is
not the leader that calls it, the thread then takes the leader's id, and no hook runs for the id
that it had (`takeover`).  It runs the exec hook as the only thread of its group, under the group's
id; the rename to the name of the program, which comes before, is a `rename`.

Four fields are history variables, which no hook and no handler reads: `Thread.proc` and
`Thread.born` are the ticks at which a thread's process was created and at which the thread took
its id, a `Stamp` carries them with an event, and `prov` gives, for a mapped process, the tick of
the process its package was resolved from. -/

namespace AetherOptExt

/-- Tracepoint offsets that have been injected. -/
structure Layout where
  offsets : TracepointOffsets
  injected : offsets.forkChildPid ≠ 0#32

/-- A live thread. -/
structure Thread where
  tgid : Tid
  comm : Comm
  proc : ℕ
  born : ℕ

/-- The process an event was submitted for, and the birth of the thread it names. -/
structure Stamp where
  proc : ℕ
  born : ℕ
deriving DecidableEq

/-- A piece of work of the daemon between two points where kernel actions can come. -/
inductive Job where
  | del (tid : Tid)
  | look (r : ProcReading)
  | bind (pid : Tid) (pkg : Str) (htr : Bool) (proc : ℕ) (x : TidReading)
  | record (pid : Tid) (pkg : Str) (htr : Bool) (proc : ℕ)
  | probe (tid : Tid) (env : Env)
  | reap

namespace Job

/-- Deletions are done before looks, and these before the other jobs. -/
def phase : Job → ℕ
  | del _ => 0
  | look _ => 1
  | _ => 2

theorem phase_le (j : Job) : j.phase ≤ 2 := by
  cases j <;> simp [phase]

/-- The process a look reads. -/
def lookPid : Job → Option Tid
  | look r => r.pid
  | _ => none

/-- The process a job of the last phase works for, with the tick of the process that was read. -/
def target : Job → Option (Tid × ℕ)
  | bind pid _ _ k _ => some (pid, k)
  | record pid _ _ k => some (pid, k)
  | _ => none

end Job

structure Sys where
  threads : KeyMap Tid Thread
  applied : AppliedMap
  queue : List (ProcEvent × Stamp)
  target : TargetMap
  cfg : AppConfig
  cache : ProcCache
  todo : List Job
  dead : List Tid
  clock : ℕ
  prov : Tid → ℕ

/-- What a thread can do; `rename` says which thread sets whose name, and `takeover` which thread
takes the id of its group. -/
inductive KernelAction where
  | clone (parent child : Tid)
  | spawn (parent child : Tid)
  | exec (tid : Tid)
  | takeover (tid leader : Tid)
  | rename (actor tid : Tid) (comm : Comm)
  | exit (tid : Tid)

/-- The action is not the creation of a process and not the renaming of another thread. -/
def KernelAction.OwnGroup : KernelAction → Prop
  | .spawn _ _ => False
  | .rename u t _ => u = t
  | _ => True

inductive Action where
  | kernel (a : KernelAction)
  | dispatch (env : Env)
  | scan (cfg : AppConfig) (target : TargetMap) (dir : List ProcReading)
  | sync (env : Tid → Env)
  | job

namespace Sys

def maps (L : Layout) (s : Sys) : Maps := ⟨s.target, s.applied, some L.offsets⟩

def live (s : Sys) (t : Tid) : Bool := (s.threads.lookup t).isSome

/-- The id can be given to a new thread: no live thread has it, as its own or its group's. -/
def Free (s : Sys) (c : Tid) : Prop := c ≠ 0#32 ∧ c ∉ s.threads ∧ s.threads.anyValue (fun x => x.tgid == c) = false

instance (s : Sys) (c : Tid) : Decidable (s.Free c) := inferInstanceAs (Decidable (_ ∧ _ ∧ _))

/-- No other thread of the group is live. -/
def Alone (s : Sys) (t tgid : Tid) : Prop := KeyMap.anyValue (s.threads.erase t) (fun x => x.tgid == tgid) = false

instance (s : Sys) (t tgid : Tid) : Decidable (s.Alone t tgid) := inferInstanceAs (Decidable (_ = _))

/-- The process that has the id, when it has a live thread. -/
def procOf (s : Sys) (pid : Tid) : Option ℕ :=
  (s.threads.entries.find? (fun e => e.2.tgid == pid)).map (fun e => e.2.proc)

/-- The state after a hook has run. -/
def submit (s : Sys) (out : AppliedMap × Option ProcEvent) (st : Stamp) : Sys :=
  { s with applied := out.1, queue := s.queue ++ (out.2.map (fun ev => (ev, st))).toList }

/-- The state after the thread `t` has taken the id `g` of its group. -/
def takenOver (s : Sys) (t g : Tid) (x : Thread) : Sys :=
  { s with threads := (s.threads.erase t).insert g { x with born := s.clock }, clock := s.clock + 1 }

/-- A thread acts and its BPF program runs. -/
def kernelStep (L : Layout) (s : Sys) : KernelAction → Option Sys
  | .clone u c =>
      match s.threads.lookup u with
      | none => none
      | some p =>
          if s.Free c then
            some ({ s with threads := s.threads.insert c ⟨p.tgid, p.comm, p.proc, s.clock⟩
                           clock := s.clock + 1 }.submit
              (schedProcessFork (s.maps L) (forkContext L.offsets p.tgid u c p.comm)) ⟨p.proc, s.clock⟩)
          else none
  | .spawn u c =>
      match s.threads.lookup u with
      | none => none
      | some p =>
          if s.Free c then
            some ({ s with threads := s.threads.insert c ⟨c, p.comm, s.clock, s.clock⟩
                           clock := s.clock + 1 }.submit
              (schedProcessFork (s.maps L) (forkContext L.offsets p.tgid u c p.comm)) ⟨p.proc, s.clock⟩)
          else none
  | .exec t =>
      match s.threads.lookup t with
      | none => none
      | some x =>
          if x.tgid = t ∧ s.Alone t t then
            some (s.submit (schedProcessExec (s.maps L) (threadContext x.tgid t x.comm)) ⟨x.proc, x.born⟩)
          else none
  | .takeover t g =>
      match s.threads.lookup t with
      | none => none
      | some x => if x.tgid = g ∧ g ∉ s.threads ∧ s.Alone t g then some (s.takenOver t g x) else none
  | .rename a t comm =>
      match s.threads.lookup a, s.threads.lookup t with
      | some p, some x =>
          if p.tgid = x.tgid then
            some ({ s with threads := s.threads.insert t { x with comm := comm } }.submit
              (taskRename (s.maps L) (renameContext L.offsets p.tgid a t x.comm comm)) ⟨p.proc, p.born⟩)
          else none
      | _, _ => none
  | .exit t =>
      match s.threads.lookup t with
      | none => none
      | some x =>
          some ({ s with threads := s.threads.erase t }.submit
            (schedProcessExit (s.maps L) (threadContext x.tgid t x.comm)) ⟨x.proc, x.born⟩)

/-- The daemon handles an event. -/
def handle (s : Sys) (env : Env) (ev : ProcEvent) (st : Stamp) : Sys :=
  let out := eventDispatch (env.over s.live) ev s.cfg s.cache s.applied
  { s with
    cache := out.1
    applied := out.2
    prov := if ev.eventType = eventExec ∨ ev.pid ∉ s.cache.pkgs then Function.update s.prov ev.pid st.proc
      else s.prov }

/-- The jobs of a selected process. -/
def targetJobs (t : ScanTarget) (k : ℕ) : List Job :=
  match t.tids with
  | none => []
  | some tids => tids.map (Job.bind t.pid t.pkg t.htr k) ++ [Job.record t.pid t.pkg t.htr k]

/-- Look at an entry of `/proc`; nothing can be read of a process that has exited. -/
def lookAt (s : Sys) (r : ProcReading) : Sys :=
  match r.pid.bind s.procOf, scanTarget s.cfg r with
  | some k, some t => { s with todo := s.todo ++ targetJobs t k }
  | _, _ => s

/-- Ask whether a bound thread has exited. -/
def probe (s : Sys) (t : Tid) (env : Env) : Sys :=
  match s.cache.tasks.lookup t with
  | none => s
  | some e =>
      if affinitySet (env.over s.live) t e.cpus e.cpusetDir s.cfg.topo then { s with dead := s.dead ++ [t] } else s

/-- One job. -/
def runJob (s : Sys) : Job → Sys
  | .del t => { s with applied := appliedDel s.applied t }
  | .look r => s.lookAt r
  | .bind pid pkg htr _ x =>
      let out := scanTask s.cfg pid pkg htr (s.cache, s.applied) { x with env := x.env.over s.live }
      { s with cache := out.1, applied := out.2 }
  | .record pid pkg htr k =>
      { s with cache := { s.cache with pkgs := s.cache.pkgs.insert pid (pkg, htr) }
               prov := Function.update s.prov pid k }
  | .probe t env => s.probe t env
  | .reap =>
      { s with cache := s.dead.foldl ProcCache.taskDel s.cache, todo := s.dead.map Job.del ++ s.todo, dead := [] }

/-- One step.  The daemon turns to the next event, scan or correction only when the work it has
begun is done; a scan follows a change of the configuration and of the whitelist. -/
def step (L : Layout) (s : Sys) : Action → Option Sys
  | .kernel a => s.kernelStep L a
  | .dispatch env =>
      match s.queue with
      | [] => none
      | (ev, st) :: queue => if s.todo.isEmpty then some ({ s with queue := queue }.handle env ev st) else none
  | .scan cfg target dir =>
      if s.todo.isEmpty then
        some { s with cfg := cfg, target := target, cache := s.cache.clear
                      todo := s.applied.keys.map Job.del ++ dir.map Job.look }
      else none
  | .sync env =>
      if s.todo.isEmpty then
        some { s with todo := s.cache.tasks.keys.map (fun t => Job.probe t (env t)) ++ [Job.reap] }
      else none
  | .job =>
      match s.todo with
      | [] => none
      | j :: rest => some ({ s with todo := rest }.runJob j)

/-- Threads of one group are of one process, and all history lies in the past. -/
structure WellFormed (s : Sys) : Prop where
  group : ∀ t x u y, s.threads.lookup t = some x → s.threads.lookup u = some y → x.tgid = y.tgid → x.proc = y.proc
  past : ∀ t x, s.threads.lookup t = some x → x.proc < s.clock ∧ x.born < s.clock
  queued : ∀ e ∈ s.queue, e.2.proc < s.clock ∧ e.2.born < s.clock

/-- A state in which the daemon has not begun to work and nothing has been reported. -/
structure Init (s : Sys) : Prop where
  wf : s.WellFormed
  applied : s.applied = ∅
  queue : s.queue = []
  cache : s.cache = ProcCache.new
  todo : s.todo = []
  dead : s.dead = []

/-! ### The cases of a kernel action -/

/-- The state with the event appended to the queue, if it is reported. -/
def report (s : Sys) (P : Prop) [Decidable P] (ev : ProcEvent) (st : Stamp) : Sys :=
  { s with queue := s.queue ++ if P then [(ev, st)] else [] }

/-- The state after `u`, the thread `p`, has created the thread `c`. -/
def forked (s : Sys) (u c : Tid) (p child : Thread) : Sys :=
  { s with threads := s.threads.insert c child, clock := s.clock + 1
           applied := if u ∈ s.applied then s.applied.insert c 0 else s.applied }.report
    (u ∈ s.applied ∨ whitelistMatched s.target p.comm = true) ⟨p.tgid, c, p.comm, eventFork⟩ ⟨p.proc, s.clock⟩

/-- What a kernel action does. -/
inductive KernelCase (s : Sys) : KernelAction → Sys → Prop
  | clone {u c : Tid} {p : Thread} (hu : s.threads.lookup u = some p) (hc : s.Free c) :
      KernelCase s (.clone u c) (s.forked u c p ⟨p.tgid, p.comm, p.proc, s.clock⟩)
  | spawn {u c : Tid} {p : Thread} (hu : s.threads.lookup u = some p) (hc : s.Free c) :
      KernelCase s (.spawn u c) (s.forked u c p ⟨c, p.comm, s.clock, s.clock⟩)
  | exec {t : Tid} {x : Thread} (ht : s.threads.lookup t = some x) (hl : x.tgid = t) (ho : s.Alone t t) :
      KernelCase s (.exec t) (s.report (whitelistMatched s.target x.comm = true) ⟨x.tgid, t, x.comm, eventExec⟩
        ⟨x.proc, x.born⟩)
  | takeover {t g : Tid} {x : Thread} (ht : s.threads.lookup t = some x) (hl : x.tgid = g) (hg : g ∉ s.threads)
      (ho : s.Alone t g) : KernelCase s (.takeover t g) (s.takenOver t g x)
  | rename {a t : Tid} {comm : Comm} {p x : Thread} (ha : s.threads.lookup a = some p)
      (ht : s.threads.lookup t = some x) (hg : p.tgid = x.tgid) :
      KernelCase s (.rename a t comm)
        ({ s with threads := s.threads.insert t { x with comm := comm } }.report
          (a ≠ 0#32 ∧ (a ∈ s.applied ∨ whitelistMatched s.target comm = true)) ⟨p.tgid, a, comm, eventRename⟩
          ⟨p.proc, p.born⟩)
  | exit {t : Tid} {x : Thread} (ht : s.threads.lookup t = some x) :
      KernelCase s (.exit t)
        ({ s with threads := s.threads.erase t
                  applied := if t ∈ s.applied then s.applied.erase t else s.applied }.report (t ∈ s.applied)
          ⟨x.tgid, t, Comm.zero, eventExit⟩ ⟨x.proc, x.born⟩)

theorem submit_ite (s : Sys) (m : AppliedMap) (P : Prop) [Decidable P] (ev : ProcEvent) (st : Stamp) :
    s.submit (m, if P then some ev else none) st = { s with applied := m }.report P ev st := by
  unfold submit report
  split_ifs <;> rfl

theorem kernelStep_case {L : Layout} {s s' : Sys} {a : KernelAction} (h : s.kernelStep L a = some s') :
    KernelCase s a s' := by
  have ho : offsetsLoad (s.maps L) = some L.offsets := offsetsLoad_of_some rfl L.injected
  cases a with
  | clone u c =>
      unfold kernelStep at h
      cases hu : s.threads.lookup u with
      | none => simp [hu] at h
      | some p =>
          simp only [hu] at h
          split_ifs at h with hc
          obtain rfl := Option.some.inj h
          rw [schedProcessFork_eq ho, submit_ite]
          exact .clone hu hc
  | spawn u c =>
      unfold kernelStep at h
      cases hu : s.threads.lookup u with
      | none => simp [hu] at h
      | some p =>
          simp only [hu] at h
          split_ifs at h with hc
          obtain rfl := Option.some.inj h
          rw [schedProcessFork_eq ho, submit_ite]
          exact .spawn hu hc
  | exec t =>
      unfold kernelStep at h
      cases ht : s.threads.lookup t with
      | none => simp [ht] at h
      | some x =>
          simp only [ht] at h
          split_ifs at h with hc
          obtain rfl := Option.some.inj h
          rw [schedProcessExec_eq, submit_ite]
          exact .exec ht hc.1 hc.2
  | takeover t g =>
      unfold kernelStep at h
      cases ht : s.threads.lookup t with
      | none => simp [ht] at h
      | some x =>
          simp only [ht] at h
          split_ifs at h with hc
          obtain rfl := Option.some.inj h
          exact .takeover ht hc.1 hc.2.1 hc.2.2
  | rename a t comm =>
      unfold kernelStep at h
      cases ha : s.threads.lookup a with
      | none => simp [ha] at h
      | some p =>
          cases ht : s.threads.lookup t with
          | none => simp [ha, ht] at h
          | some x =>
              simp only [ha, ht] at h
              split_ifs at h with hg
              obtain rfl := Option.some.inj h
              rw [taskRename_eq ho, submit_ite]
              exact .rename ha ht hg
  | exit t =>
      unfold kernelStep at h
      cases ht : s.threads.lookup t with
      | none => simp [ht] at h
      | some x =>
          simp only [ht] at h
          obtain rfl := Option.some.inj h
          rw [schedProcessExit_eq, submit_ite]
          exact .exit ht

/-- What one step does. -/
inductive StepCase (s : Sys) : Action → Sys → Prop
  | kernel {a : KernelAction} {s' : Sys} (h : KernelCase s a s') : StepCase s (.kernel a) s'
  | dispatch {env : Env} {ev : ProcEvent} {st : Stamp} {q : List (ProcEvent × Stamp)} (ht : s.todo = [])
      (hq : s.queue = (ev, st) :: q) : StepCase s (.dispatch env) ({ s with queue := q }.handle env ev st)
  | scan {cfg : AppConfig} {target : TargetMap} {dir : List ProcReading} (ht : s.todo = []) :
      StepCase s (.scan cfg target dir)
        { s with cfg := cfg, target := target, cache := s.cache.clear
                 todo := s.applied.keys.map Job.del ++ dir.map Job.look }
  | sync {env : Tid → Env} (ht : s.todo = []) :
      StepCase s (.sync env)
        { s with todo := s.cache.tasks.keys.map (fun t => Job.probe t (env t)) ++ [Job.reap] }
  | job {j : Job} {rest : List Job} (ht : s.todo = j :: rest) : StepCase s .job ({ s with todo := rest }.runJob j)

theorem step_case {L : Layout} {s s' : Sys} {a : Action} (h : step L s a = some s') : StepCase s a s' := by
  cases a with
  | kernel a => exact .kernel (kernelStep_case h)
  | dispatch env =>
      unfold step at h
      cases hq : s.queue with
      | nil => simp [hq] at h
      | cons e q =>
          simp only [hq] at h
          split_ifs at h with ht
          obtain rfl := Option.some.inj h
          exact .dispatch (List.isEmpty_iff.mp ht) hq
  | scan cfg target dir =>
      unfold step at h
      simp only at h
      split_ifs at h with ht
      obtain rfl := Option.some.inj h
      exact .scan (List.isEmpty_iff.mp ht)
  | sync env =>
      unfold step at h
      simp only at h
      split_ifs at h with ht
      obtain rfl := Option.some.inj h
      exact .sync (List.isEmpty_iff.mp ht)
  | job =>
      unfold step at h
      cases ht : s.todo with
      | nil => simp [ht] at h
      | cons j rest =>
          simp only [ht] at h
          obtain rfl := Option.some.inj h
          exact .job ht

/-! ### Jobs and reports -/

/-- Looking at an entry of `/proc` adds the jobs of the process, when it runs and is selected. -/
theorem lookAt_case (s : Sys) (r : ProcReading) :
    s.lookAt r = s ∨
      ∃ k t, r.pid.bind s.procOf = some k ∧ scanTarget s.cfg r = some t ∧
        s.lookAt r = { s with todo := s.todo ++ targetJobs t k } := by
  unfold lookAt
  cases hk : r.pid.bind s.procOf with
  | none => exact Or.inl rfl
  | some k =>
      cases ht : scanTarget s.cfg r with
      | none => exact Or.inl rfl
      | some t => exact Or.inr ⟨k, t, rfl, rfl, rfl⟩

theorem probe_case (s : Sys) (t : Tid) (env : Env) :
    s.probe t env = s ∨ s.probe t env = { s with dead := s.dead ++ [t] } := by
  unfold probe
  cases s.cache.tasks.lookup t with
  | none => exact Or.inl rfl
  | some e =>
      simp only
      split_ifs
      · exact Or.inr rfl
      · exact Or.inl rfl

/-- Binding a thread maps no process. -/
theorem runJob_bind_pkgs (s : Sys) (pid : Tid) (pkg : Str) (htr : Bool) (k : ℕ) (x : TidReading) :
    (s.runJob (.bind pid pkg htr k x)).cache.pkgs = s.cache.pkgs :=
  scanTask_pkgs s.cfg pid pkg htr (s.cache, s.applied) _

theorem mem_targetJobs {t : ScanTarget} {k : ℕ} {j : Job} (h : j ∈ targetJobs t k) :
    (∃ x, j = .bind t.pid t.pkg t.htr k x) ∨ j = .record t.pid t.pkg t.htr k := by
  unfold targetJobs at h
  cases htids : t.tids with
  | none => simp [htids] at h
  | some tids =>
      rw [htids] at h
      rcases List.mem_append.mp h with h | h
      · obtain ⟨x, -, rfl⟩ := List.mem_map.mp h
        exact Or.inl ⟨x, rfl⟩
      · exact Or.inr (List.mem_singleton.mp h)

theorem phase_targetJobs {t : ScanTarget} {k : ℕ} {j : Job} (h : j ∈ targetJobs t k) : j.phase = 2 := by
  rcases mem_targetJobs h with ⟨x, rfl⟩ | rfl
  · rfl
  · rfl

theorem mem_report {s : Sys} {P : Prop} [Decidable P] {ev : ProcEvent} {st : Stamp} {e : ProcEvent × Stamp} :
    e ∈ (s.report P ev st).queue ↔ e ∈ s.queue ∨ (P ∧ e = (ev, st)) := by
  unfold report
  split_ifs with hP
  · simp [hP]
  · simp [hP]

/-- The event that a report appends. -/
theorem report_eq {s : Sys} {P : Prop} [Decidable P] {e : ProcEvent} {st : Stamp} {ev : ProcEvent × Stamp}
    (h : (s.report P e st).queue = s.queue ++ [ev]) : P ∧ ev = (e, st) := by
  unfold report at h
  have h' := List.append_cancel_left h
  split_ifs at h' with hP
  exact ⟨hP, (List.cons.inj h').1.symm⟩

theorem live_iff {s : Sys} {t : Tid} : s.live t = true ↔ t ∈ s.threads := AList.lookup_isSome

/-- An EXIT event of the thread waits in the queue. -/
def ExitQueued (s : Sys) (t : Tid) : Prop := ∃ e ∈ s.queue, e.1.tid = t ∧ e.1.eventType = eventExit

/-- Only kernel actions change the threads and the clock, and only they add events. -/
theorem StepCase.kernel_frame {s s' : Sys} {a : Action} (h : StepCase s a s') (ha : ∀ k, a ≠ .kernel k) :
    s'.threads = s.threads ∧ s'.clock = s.clock ∧ s'.queue.Sublist s.queue := by
  cases h with
  | kernel => exact absurd rfl (ha _)
  | dispatch ht hq => exact ⟨rfl, rfl, by rw [hq]; exact List.sublist_cons_self _ _⟩
  | scan ht => exact ⟨rfl, rfl, List.Sublist.refl _⟩
  | sync ht => exact ⟨rfl, rfl, List.Sublist.refl _⟩
  | @job j rest ht =>
      cases j with
      | look r =>
          show ({ s with todo := rest }.lookAt r).threads = _ ∧ ({ s with todo := rest }.lookAt r).clock = _ ∧
            ({ s with todo := rest }.lookAt r).queue.Sublist s.queue
          rcases lookAt_case { s with todo := rest } r with he | ⟨k, t, -, -, he⟩
          · rw [he]
            exact ⟨rfl, rfl, List.Sublist.refl _⟩
          · rw [he]
            exact ⟨rfl, rfl, List.Sublist.refl _⟩
      | probe t env =>
          show ({ s with todo := rest }.probe t env).threads = _ ∧ ({ s with todo := rest }.probe t env).clock = _ ∧
            ({ s with todo := rest }.probe t env).queue.Sublist s.queue
          rcases probe_case { s with todo := rest } t env with he | he
          · rw [he]
            exact ⟨rfl, rfl, List.Sublist.refl _⟩
          · rw [he]
            exact ⟨rfl, rfl, List.Sublist.refl _⟩
      | del t => exact ⟨rfl, rfl, List.Sublist.refl _⟩
      | bind pid pkg htr k x => exact ⟨rfl, rfl, List.Sublist.refl _⟩
      | record pid pkg htr k => exact ⟨rfl, rfl, List.Sublist.refl _⟩
      | reap => exact ⟨rfl, rfl, List.Sublist.refl _⟩

/-- A kernel action leaves the daemon's data alone. -/
theorem KernelCase.daemon_frame {s s' : Sys} {a : KernelAction} (h : KernelCase s a s') :
    s'.cache = s.cache ∧ s'.cfg = s.cfg ∧ s'.todo = s.todo ∧ s'.prov = s.prov := by
  cases h <;> exact ⟨rfl, rfl, rfl, rfl⟩

theorem lookup_forked {s : Sys} {u c : Tid} {p child : Thread} (t : Tid) :
    (s.forked u c p child).threads.lookup t = if t = c then some child else s.threads.lookup t :=
  KeyMap.lookup_insert s.threads c t child

theorem lookup_takenOver {s : Sys} {t g : Tid} {x : Thread} (u : Tid) : (s.takenOver t g x).threads.lookup u =
    if u = g then some { x with born := s.clock } else if u = t then none else s.threads.lookup u := by
  show ((s.threads.erase t).insert g _).lookup u = _
  rw [KeyMap.lookup_insert, KeyMap.lookup_erase]

/-- A thread that lives after a takeover has the id taken over, or it lived before. -/
theorem takenOver_source {s : Sys} {t g : Tid} {x : Thread} {u : Tid} {y : Thread}
    (hy : (s.takenOver t g x).threads.lookup u = some y) :
    (u = g ∧ y = { x with born := s.clock }) ∨ (u ≠ g ∧ s.threads.lookup u = some y) := by
  rw [lookup_takenOver] at hy
  split_ifs at hy with hu hut
  · exact Or.inl ⟨hu, (Option.some.inj hy).symm⟩
  · exact Or.inr ⟨hu, hy⟩

/-- A thread that lives after a rename lived before, in the same group and process. -/
theorem renamed_source {s : Sys} {t : Tid} {x : Thread} {comm : Comm} (ht : s.threads.lookup t = some x) {u : Tid}
    {y : Thread} (hy : (s.threads.insert t { x with comm := comm }).lookup u = some y) :
    ∃ z, s.threads.lookup u = some z ∧ y.tgid = z.tgid ∧ y.proc = z.proc ∧ y.born = z.born := by
  rw [KeyMap.lookup_insert] at hy
  split_ifs at hy with hut
  · obtain rfl := Option.some.inj hy
    exact ⟨x, hut ▸ ht, rfl, rfl, rfl⟩
  · exact ⟨y, hy, rfl, rfl, rfl⟩

theorem exited_source {s : Sys} {t u : Tid} {y : Thread} (hy : (s.threads.erase t).lookup u = some y) :
    s.threads.lookup u = some y := by
  rw [KeyMap.lookup_erase] at hy
  split_ifs at hy
  exact hy

/-- A takeover reports nothing. -/
theorem takenOver_queue_ne (s : Sys) (t g : Tid) (x : Thread) (e : ProcEvent × Stamp) :
    (s.takenOver t g x).queue ≠ s.queue ++ [e] :=
  fun h => List.cons_ne_nil e [] (List.self_eq_append_right.mp h)

/-- A fork removes nothing from `APPLIED_MAP`, and an exit the exiting thread only. -/
theorem mem_applied_forked {s : Sys} {u c t : Tid} {p child : Thread} (h : t ∈ s.applied) :
    t ∈ (s.forked u c p child).applied := by
  show t ∈ (if u ∈ s.applied then s.applied.insert c 0 else s.applied)
  split_ifs
  · exact KeyMap.mem_insert.mpr (Or.inr h)
  · exact h

theorem mem_applied_exit {applied : AppliedMap} {u t : Tid} (h : t ∈ applied) (hne : t ≠ u) :
    t ∈ (if u ∈ applied then applied.erase u else applied) := by
  split_ifs
  · exact AList.mem_erase.mpr ⟨hne, h⟩
  · exact h

/-- No live thread is in the group of a free id. -/
theorem Free.tgid_ne {s : Sys} {c t : Tid} (h : s.Free c) {x : Thread} (hx : s.threads.lookup t = some x) :
    x.tgid ≠ c := by
  intro he
  have hany : s.threads.anyValue (fun x => x.tgid == c) = true :=
    KeyMap.anyValue_iff.mpr ⟨t, x, hx, beq_iff_eq.mpr he⟩
  rw [h.2.2] at hany
  cases hany

theorem WellFormed.forked {s : Sys} (h : s.WellFormed) {u c : Tid} {p child : Thread}
    (hu : s.threads.lookup u = some p) (hborn : child.born = s.clock) (hproc : child.proc ≤ s.clock)
    (hgroup : ∀ t x, s.threads.lookup t = some x → x.tgid = child.tgid → x.proc = child.proc) :
    (s.forked u c p child).WellFormed := by
  have hclock : (s.forked u c p child).clock = s.clock + 1 := rfl
  refine ⟨fun t x v y ht hv hg => ?_, fun t x ht => ?_, fun e he => ?_⟩
  · rw [lookup_forked] at ht hv
    split_ifs at ht hv with h1 h2 h2
    · rw [← Option.some.inj ht, ← Option.some.inj hv]
    · obtain rfl := Option.some.inj ht
      exact (hgroup v y hv hg.symm).symm
    · obtain rfl := Option.some.inj hv
      exact hgroup t x ht hg
    · exact h.group t x v y ht hv hg
  · rw [lookup_forked] at ht
    rw [hclock]
    split_ifs at ht
    · obtain rfl := Option.some.inj ht
      omega
    · have := h.past t x ht
      omega
  · rw [hclock]
    rcases mem_report.mp he with he | ⟨-, rfl⟩
    · have := h.queued e he
      omega
    · have := h.past u p hu
      exact ⟨by show p.proc < _; omega, by show s.clock < _; omega⟩

/-- A step after which every thread is of the group and the process of one that was there. -/
theorem WellFormed.of_source {s s' : Sys} (h : s.WellFormed) (hclock : s.clock ≤ s'.clock)
    (hthreads : ∀ v y, s'.threads.lookup v = some y → y.born < s'.clock ∧
      ∃ u x, s.threads.lookup u = some x ∧ y.tgid = x.tgid ∧ y.proc = x.proc)
    (hqueue : ∀ e ∈ s'.queue, e ∈ s.queue ∨ (e.2.proc < s.clock ∧ e.2.born < s.clock)) : s'.WellFormed := by
  refine ⟨fun v y w z hv hw hg => ?_, fun v y hv => ?_, fun e he => ?_⟩
  · obtain ⟨-, u, x, hx, hyg, hyp⟩ := hthreads v y hv
    obtain ⟨-, u', x', hx', hzg, hzp⟩ := hthreads w z hw
    rw [hyp, hzp]
    exact h.group u x u' x' hx hx' (by rw [← hyg, ← hzg, hg])
  · obtain ⟨hborn, u, x, hx, -, hyp⟩ := hthreads v y hv
    have := (h.past u x hx).1
    exact ⟨by omega, hborn⟩
  · have : e.2.proc < s.clock ∧ e.2.born < s.clock := (hqueue e he).elim (h.queued e) id
    exact ⟨by omega, by omega⟩

theorem WellFormed.kernel {s s' : Sys} {a : KernelAction} (h : s.WellFormed) (hk : KernelCase s a s') :
    s'.WellFormed := by
  cases hk with
  | @clone u c p hu hc =>
      refine h.forked hu rfl (h.past u p hu).1.le fun t x hx hg => ?_
      exact h.group t x u p hx hu hg
  | @spawn u c p hu hc =>
      exact h.forked hu rfl le_rfl fun t x hx hg => absurd hg (hc.tgid_ne hx)
  | @exec t x ht hl ho =>
      refine h.of_source le_rfl (fun v y hv => ⟨(h.past v y hv).2, v, y, hv, rfl, rfl⟩) fun e he => ?_
      rcases mem_report.mp he with he | ⟨-, rfl⟩
      · exact Or.inl he
      · exact Or.inr (h.past t x ht)
  | @takeover t g x ht hl hg ho =>
      refine h.of_source (Nat.le_succ _) (fun v y hv => ?_) fun e he => Or.inl he
      rcases takenOver_source hv with ⟨-, rfl⟩ | ⟨-, hv⟩
      · exact ⟨Nat.lt_succ_self _, t, x, ht, rfl, rfl⟩
      · exact ⟨Nat.lt_succ_of_lt (h.past v y hv).2, v, y, hv, rfl, rfl⟩
  | @rename b t comm p x hb ht hg =>
      refine h.of_source le_rfl (fun v y hv => ?_) fun e he => ?_
      · obtain ⟨z, hz, hyg, hyp, hyb⟩ := renamed_source ht hv
        exact ⟨hyb ▸ (h.past v z hz).2, v, z, hz, hyg, hyp⟩
      · rcases mem_report.mp he with he | ⟨-, rfl⟩
        · exact Or.inl he
        · exact Or.inr (h.past b p hb)
  | @exit t x ht =>
      refine h.of_source le_rfl (fun v y hv => ?_) fun e he => ?_
      · have hv := exited_source hv
        exact ⟨(h.past v y hv).2, v, y, hv, rfl, rfl⟩
      · rcases mem_report.mp he with he | ⟨-, rfl⟩
        · exact Or.inl he
        · exact Or.inr (h.past t x ht)

theorem WellFormed.step {L : Layout} {s s' : Sys} {a : Action} (h : s.WellFormed) (hs : step L s a = some s') :
    s'.WellFormed := by
  have hc := step_case hs
  by_cases ha : ∀ k, a ≠ .kernel k
  · obtain ⟨hthreads, hclock, hqueue⟩ := hc.kernel_frame ha
    refine ⟨?_, ?_, fun e he => ?_⟩
    · rw [hthreads]
      exact h.group
    · rw [hthreads, hclock]
      exact h.past
    · rw [hclock]
      exact h.queued e (hqueue.subset he)
  · push Not at ha
    obtain ⟨k, rfl⟩ := ha
    cases hc with
    | kernel hk => exact h.kernel hk

/-! ### Binding a thread while the kernel stands still -/

/-- The rules decide for the thread, and its old binding does not stay. -/
def Rebinds (mk : DirCall → Bool) (pc : ProcCache) (cfg : AppConfig) (tid : Tid) (pkg name : Str) : Prop :=
  ∃ r, threadAffinity mk pkg name cfg cfg.topo = some r ∧ pc.keeps tid r = false

/-- What `task_apply` does in the daemon's hands: nothing, or a thread that is not live loses
its binding, or a live one is bound and entered into `APPLIED_MAP`. -/
theorem applyCase_over {env : Env} {live : Tid → Bool} {pc : ProcCache} {tid pid : Tid} {pkg name : Str}
    {cfg : AppConfig} {applied : AppliedMap} {out : Bool × ProcCache × AppliedMap}
    (h : ProcCache.ApplyCase (env.over live).createDir pc tid pid pkg name cfg
      (eventAffinityApply (env.over live) cfg.topo) applied out) :
    (¬ Rebinds env.createDir pc cfg tid pkg name ∧ out.2 = (pc, applied)) ∨
    (Rebinds env.createDir pc cfg tid pkg name ∧
      ((live tid = false ∧ out.2 = (⟨pc.pkgs, pc.tasks.erase tid⟩, applied)) ∨
      ∃ r w, live tid = true ∧
        out.2 = (⟨pc.pkgs, (pc.tasks.erase tid).insert tid (ProcCache.entryOf pid r)⟩, appliedSet applied tid w))) := by
  cases h with
  | unruled h =>
      refine Or.inl ⟨?_, rfl⟩
      rintro ⟨r, hr, -⟩
      rw [Env.over_createDir, hr] at h
      cases h
  | kept h hk =>
      refine Or.inl ⟨?_, rfl⟩
      rintro ⟨r, hr, hkr⟩
      rw [Env.over_createDir, hr] at h
      obtain rfl := Option.some.inj h
      rw [hk] at hkr
      cases hkr
  | gone h hk hd =>
      have hl := hd
      rw [eventAffinityApply_fst, affinitySet_over, Bool.not_eq_true'] at hl
      exact Or.inr ⟨⟨_, h, hk⟩, Or.inl ⟨hl, by rw [eventAffinityApply_of_dead hd]⟩⟩
  | @bound r h hk hd =>
      have hl := hd
      rw [eventAffinityApply_fst, affinitySet_over, Bool.not_eq_false'] at hl
      exact Or.inr ⟨⟨r, h, hk⟩, Or.inr ⟨r, r.cpus.word 0, hl, by rw [eventAffinityApply_of_alive hd]⟩⟩

/-! ### A small device -/

/-- The offsets of a common kernel. -/
def someLayout : Layout := ⟨⟨44, 28, 28⟩, by decide⟩

/-- One process with one thread, 100, under the configuration `oneRule`. -/
def oneProcess (name : Str) : Sys :=
  { threads := AList.insert 100 ⟨100, Comm.ofText name, 0, 0⟩ ∅
    applied := ∅
    queue := []
    target := (commMapInit ∅ oneRule.pkgSet 8192).1
    cfg := oneRule
    cache := ProcCache.new
    todo := []
    dead := []
    clock := 1
    prov := fun _ => 0 }

theorem oneProcess_init (name : Str) : (oneProcess name).Init := by
  have hone : ∀ t x, (oneProcess name).threads.lookup t = some x → x = ⟨100, Comm.ofText name, 0, 0⟩ := by
    intro t x h
    unfold oneProcess at h
    rw [KeyMap.lookup_insert] at h
    split_ifs at h
    · exact (Option.some.inj h).symm
    · cases h
  refine ⟨⟨fun t x u y ht hu _ => ?_, fun t x ht => ?_, fun e he => absurd he List.not_mem_nil⟩, rfl, rfl, rfl,
    rfl, rfl⟩
  · rw [hone t x ht, hone u y hu]
  · rw [hone t x ht]
    exact ⟨Nat.one_pos, Nat.one_pos⟩

/-- A rule without a directory. -/
def plainRule (pkg thread cpus : String) : Rule :=
  { pkg := pkg.toList, thread := thread.toList, cpus := cpus.toList, prio := 200, cpusetDir := [] }

/-- Two apps with thread rules, one without rules, and one whose name is empty. -/
def fourApps : AppConfig :=
  { oneRule with
    rules := [plainRule "com.a" "" "0-3", plainRule "com.a" "Render" "7", plainRule "com.a" "com.*" "6",
      plainRule "com.b" "" "4", plainRule "com.b" "Render" "5", plainRule "" "" "1", plainRule "" "Render" "2"]
    pkgSet := ⟨["com.a".toList, "com.b".toList, "com.c".toList, []], by decide⟩ }

/-- The process 100 under the configuration `fourApps`. -/
def appProcess (name : Str) : Sys :=
  { oneProcess name with cfg := fourApps, target := (commMapInit ∅ fourApps.pkgSet 8192).1 }

theorem appProcess_init (name : Str) : (appProcess name).Init := by
  have h := oneProcess_init name
  exact ⟨⟨h.wf.group, h.wf.past, h.wf.queued⟩, h.applied, h.queue, h.cache, h.todo, h.dead⟩

/-- The thread renames itself. -/
def renames (t : Tid) (name : String) : Action := .kernel (.rename t t (Comm.ofText name.toList))

def clones (u c : Tid) : Action := .kernel (.clone u c)

end Sys

end AetherOptExt
