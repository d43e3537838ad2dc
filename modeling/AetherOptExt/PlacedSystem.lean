import AetherOptExt.EventEnforces
import AetherOptExt.Lib.Simulation
import AetherOptExt.Uninterrupted

/-! # Kernel, daemon and placement together

`Sys` has the kernel, its BPF programs, the queue and the daemon, and takes what the operating system
answers from the action; `Placed` has the directories and the masks, and takes its events from the
action.  `PlacedSys` is both: the answers come from the directories, the events from the threads, and
a scan or a correction moves one thread after the other, with kernel actions between them.

What a step of the daemon does is that of the functions on a `Placement`; on the cache, on
`APPLIED_MAP` and on the open work it is a step of `Sys` (`backward`), so that every state that is
reached is one of `Sys` (`reachable_sys`).  A scan of `Sys` fixes all answers when it begins, while
here they depend on the directories that the threads before have left; runs are therefore matched
from their ends. -/

namespace AetherOptExt

open CpuSet ProcCache Placement

/-! ### Jobs without their answers -/

/-- What is read of a thread, without the operating system's answers. -/
def TidReading.unanswered (x : TidReading) : TidReading := { x with env := allAlive }

def ProcReading.unanswered (r : ProcReading) : ProcReading :=
  { r with tids := r.tids.map (List.map TidReading.unanswered) }

namespace Job

def unanswered : Job → Job
  | .look r => .look r.unanswered
  | .bind pid pkg htr k x => .bind pid pkg htr k x.unanswered
  | j => j

/-- The jobs differ in the operating system's answers only. -/
def Alike (js js' : List Job) : Prop := js'.map unanswered = js.map unanswered

/-- Jobs that are like jobs without answers are these. -/
theorem Alike.eq {js js' : List Job} (h : Alike js js')
    (hbare : ∀ j j' : Job, j ∈ js → j'.unanswered = j.unanswered → j' = j) : js' = js := by
  induction js generalizing js' with
  | nil => exact List.map_eq_nil_iff.mp h
  | cons j js ih =>
      cases js' with
      | nil => cases h
      | cons j' js' =>
          obtain ⟨hj, hjs⟩ := List.cons.inj h
          rw [hbare j j' List.mem_cons_self hj, ih hjs fun i i' hi => hbare i i' (List.mem_cons_of_mem j hi)]

/-- Jobs like those of a listing are those of a listing. -/
theorem Alike.look : ∀ {dir : List ProcReading} {js : List Job}, Alike (dir.map look) js →
    ∃ dir' : List ProcReading, js = dir'.map Job.look
  | [], js, h => ⟨[], List.map_eq_nil_iff.mp h⟩
  | r :: dir, [], h => by cases h
  | r :: dir, j :: js, h => by
      obtain ⟨hj, hjs⟩ := List.cons.inj h
      obtain ⟨dir', rfl⟩ := Alike.look hjs
      cases j with
      | look r' => exact ⟨r' :: dir', rfl⟩
      | del | bind | record | probe | reap => cases hj

/-- Jobs like those of the threads of a process are those of such threads. -/
theorem Alike.bind {pid : Tid} {pkg : Str} {htr : Bool} {k : ℕ} : ∀ {tids : List TidReading} {js : List Job},
    Alike (tids.map (bind pid pkg htr k)) js → ∃ tids' : List TidReading, js = tids'.map (Job.bind pid pkg htr k) ∧
      tids'.map TidReading.unanswered = tids.map TidReading.unanswered
  | [], js, h => ⟨[], List.map_eq_nil_iff.mp h, rfl⟩
  | x :: tids, [], h => by cases h
  | x :: tids, j :: js, h => by
      obtain ⟨hj, hjs⟩ := List.cons.inj h
      obtain ⟨tids', rfl, hsame⟩ := Alike.bind hjs
      cases j with
      | bind pid' pkg' htr' k' x' =>
          obtain ⟨rfl, rfl, rfl, rfl, hx⟩ := Job.bind.inj hj
          exact ⟨x' :: tids', rfl, by rw [List.map_cons, List.map_cons, hx, hsame]⟩
      | del | look | record | probe | reap => cases hj

/-- The jobs after those of a list. -/
theorem Alike.append {is js ks : List Job} (h : Alike (is ++ js) ks) : ∃ is' js', ks = is' ++ js' ∧ Alike is is' ∧
    Alike js js' := by
  unfold Alike at h
  rw [List.map_append] at h
  exact List.map_eq_append_iff.mp h

end Job

/-! ### The system -/

structure PlacedSys where
  sys : Sys
  w : Placement

/-- What can happen: a thread acts; the daemon handles the oldest event, loads its file again and begins
a scan, begins a correction, or does a piece of its work; another program moves a thread. -/
inductive PlacedSysAction where
  | kernel (a : KernelAction)
  | dispatch (fs : FsAnswers)
  | scan (fs : FsAnswers) (data : Option Str) (mtime : Option ℕ) (cache : Option Str) (target : TargetMap)
      (dir : List ProcReading)
  | sync
  | job (fs : FsAnswers)
  | foreign (tid : Tid) (x : Standing)

namespace Placement

/-- A new thread stands where the thread stands that has created it. -/
def inherit (w : Placement) (u c : Tid) : Placement :=
  match w.threads.lookup u with
  | none => w
  | some x => { w with threads := w.threads.insert c x }

/-- A thread that takes the id of its group stands where it stood. -/
def takenOver (w : Placement) (t g : Tid) : Placement :=
  match w.threads.lookup t with
  | none => w
  | some x => { w with threads := (w.threads.erase t).insert g x }

/-- What a kernel action does to where threads stand. -/
def kernel (w : Placement) : KernelAction → Placement
  | .clone u c => w.inherit u c
  | .spawn u c => w.inherit u c
  | .exec _ => w
  | .takeover t g => w.takenOver t g
  | .rename _ _ _ => w
  | .exit t => { w with threads := w.threads.erase t }

end Placement

namespace PlacedSys

section

variable (parse : Str → Option JsonValue) (allow : Tid → Str → Bool) (L : Layout)

/-- The daemon handles an event. -/
def handle (s : PlacedSys) (fs : FsAnswers) (ev : ProcEvent) (st : Stamp) : PlacedSys :=
  let out := eventDispatchIn fs allow ev s.sys.cfg s.sys.cache (s.sys.applied, s.w)
  { sys := { s.sys.handle (env fs s.w) ev st with cache := out.1, applied := out.2.1 }, w := out.2.2 }

/-- Put a bound thread where its entry says. -/
def probe (s : PlacedSys) (t : Tid) : PlacedSys :=
  match s.sys.cache.tasks.lookup t with
  | none => s
  | some e =>
      let out := s.w.affinitySetIn allow t e.cpus e.cpusetDir s.sys.cfg.topo
      { sys := if out.1 then { s.sys with dead := s.sys.dead ++ [t] } else s.sys, w := out.2.2 }

/-- One job. -/
def runJob (s : PlacedSys) (fs : FsAnswers) : Job → PlacedSys
  | .bind pid pkg htr _ x =>
      let out := scanTaskIn fs allow s.sys.cfg pid pkg htr (s.sys.cache, s.sys.applied, s.w) x
      { sys := { s.sys with cache := out.1, applied := out.2.1 }, w := out.2.2 }
  | .probe t _ => s.probe allow t
  | .del t => { s with sys := s.sys.runJob (.del t) }
  | .look r => { s with sys := s.sys.runJob (.look r) }
  | .record pid pkg htr k => { s with sys := s.sys.runJob (.record pid pkg htr k) }
  | .reap => { s with sys := s.sys.runJob .reap }

/-- The configuration after `hot_reload`: the cache file is merged into a new one, and the old one is
kept as it is when the load fails. -/
def loaded (s : PlacedSys) (fs : FsAnswers) (data : Option Str) (mtime : Option ℕ) (cache : Option Str) : AppConfig :=
  ((loadIn fs parse s.sys.cfg.topo data mtime s.w.tree).1.map (AppConfig.mergeCache parse cache)).getD s.sys.cfg

/-- One step. -/
def step (s : PlacedSys) : PlacedSysAction → Option PlacedSys
  | .kernel a => (s.sys.kernelStep L a).map fun sys => ⟨sys, s.w.kernel a⟩
  | .dispatch fs =>
      match s.sys.queue with
      | [] => none
      | (ev, st) :: queue =>
          if s.sys.todo.isEmpty then some (handle allow { s with sys := { s.sys with queue := queue } } fs ev st)
          else none
  | .scan fs data mtime cache target dir =>
      if s.sys.todo.isEmpty then
        some
          { sys :=
              { s.sys with
                cfg := s.loaded parse fs data mtime cache
                target := target
                cache := s.sys.cache.clear
                todo := s.sys.applied.keys.map Job.del ++ dir.map Job.look }
            w := { s.w with tree := (loadIn fs parse s.sys.cfg.topo data mtime s.w.tree).2 } }
      else none
  | .sync =>
      if s.sys.todo.isEmpty then
        some { s with
          sys := { s.sys with todo := s.sys.cache.tasks.keys.map (fun t => Job.probe t allAlive) ++ [Job.reap] } }
      else none
  | .job fs =>
      match s.sys.todo with
      | [] => none
      | j :: rest => some (runJob allow { s with sys := { s.sys with todo := rest } } fs j)
  | .foreign tid x =>
      if tid ∈ s.w.threads then some { s with w := { s.w with threads := s.w.threads.insert tid x } } else none

/-- A probe moves a bound thread, and notes it when it has exited. -/
theorem probe_case (s : PlacedSys) (t : Tid) :
    (s.sys.cache.tasks.lookup t = none ∧ s.probe allow t = s) ∨
      ∃ e, s.sys.cache.tasks.lookup t = some e ∧
        ((t ∉ s.w.threads ∧ s.probe allow t =
            ⟨{ s.sys with dead := s.sys.dead ++ [t] },
              (s.w.affinitySetIn allow t e.cpus e.cpusetDir s.sys.cfg.topo).2.2⟩) ∨
          (t ∈ s.w.threads ∧ s.probe allow t =
            ⟨s.sys, (s.w.affinitySetIn allow t e.cpus e.cpusetDir s.sys.cfg.topo).2.2⟩)) := by
  unfold probe
  cases s.sys.cache.tasks.lookup t with
  | none => exact .inl ⟨rfl, rfl⟩
  | some e =>
      refine .inr ⟨e, rfl, ?_⟩
      dsimp only
      rw [affinitySetIn_fst]
      by_cases ht : t ∈ s.w.threads
      · rw [decide_eq_false (not_not_intro ht)]
        exact .inr ⟨ht, rfl⟩
      · rw [decide_eq_true ht]
        exact .inl ⟨ht, rfl⟩

/-- What one step does. -/
inductive StepCase (s : PlacedSys) : PlacedSysAction → PlacedSys → Prop
  | kernel {a : KernelAction} {sys : Sys} (hk : s.sys.kernelStep L a = some sys) :
      StepCase s (.kernel a) ⟨sys, s.w.kernel a⟩
  | dispatch {fs : FsAnswers} {ev : ProcEvent} {st : Stamp} {q : List (ProcEvent × Stamp)} (ht : s.sys.todo = [])
      (hq : s.sys.queue = (ev, st) :: q) :
      StepCase s (.dispatch fs) (handle allow { s with sys := { s.sys with queue := q } } fs ev st)
  | scan {fs : FsAnswers} {data : Option Str} {mtime : Option ℕ} {cache : Option Str} {target : TargetMap}
      {dir : List ProcReading} (ht : s.sys.todo = []) :
      StepCase s (.scan fs data mtime cache target dir)
        { sys :=
            { s.sys with
              cfg := s.loaded parse fs data mtime cache
              target := target
              cache := s.sys.cache.clear
              todo := s.sys.applied.keys.map Job.del ++ dir.map Job.look }
          w := { s.w with tree := (loadIn fs parse s.sys.cfg.topo data mtime s.w.tree).2 } }
  | sync (ht : s.sys.todo = []) :
      StepCase s .sync { s with
        sys := { s.sys with todo := s.sys.cache.tasks.keys.map (fun t => Job.probe t allAlive) ++ [Job.reap] } }
  | job {fs : FsAnswers} {j : Job} {rest : List Job} (ht : s.sys.todo = j :: rest) :
      StepCase s (.job fs) (runJob allow { s with sys := { s.sys with todo := rest } } fs j)
  | foreign {tid : Tid} {x : Standing} (htid : tid ∈ s.w.threads) :
      StepCase s (.foreign tid x) { s with w := { s.w with threads := s.w.threads.insert tid x } }

theorem step_case {s s' : PlacedSys} {a : PlacedSysAction} (h : s.step parse allow L a = some s') :
    StepCase parse allow L s a s' := by
  cases a with
  | kernel a =>
      obtain ⟨sys, hk, rfl⟩ := Option.map_eq_some_iff.mp h
      exact .kernel hk
  | dispatch fs =>
      unfold step at h
      cases hq : s.sys.queue with
      | nil => simp [hq] at h
      | cons e q =>
          simp only [hq] at h
          split_ifs at h with ht
          obtain rfl := Option.some.inj h
          exact .dispatch (List.isEmpty_iff.mp ht) hq
  | scan fs data mtime cache target dir =>
      unfold step at h
      dsimp only at h
      split_ifs at h with ht
      obtain rfl := Option.some.inj h
      exact .scan (List.isEmpty_iff.mp ht)
  | sync =>
      unfold step at h
      dsimp only at h
      split_ifs at h with ht
      obtain rfl := Option.some.inj h
      exact .sync (List.isEmpty_iff.mp ht)
  | job fs =>
      unfold step at h
      cases ht : s.sys.todo with
      | nil => simp [ht] at h
      | cons j rest =>
          simp only [ht] at h
          obtain rfl := Option.some.inj h
          exact .job ht
  | foreign tid x =>
      unfold step at h
      dsimp only at h
      split_ifs at h with htid
      obtain rfl := Option.some.inj h
      exact .foreign htid

/-- The daemon on the placement, between two pieces of work. -/
def placed (s : PlacedSys) : Placed := ⟨s.sys.cfg, s.sys.cache, s.sys.applied, s.w⟩

/-- The threads that stand somewhere are the live ones. -/
def Coupled (s : PlacedSys) : Prop := ∀ u, u ∈ s.w.threads ↔ u ∈ s.sys.threads

/-- The daemon has loaded its file and merged the cache file, and has not begun to work. -/
structure Init (s : PlacedSys) : Prop where
  sys : s.sys.Init
  coupled : s.Coupled
  placed : Placed.Init parse s.placed

end

/-! ### What the daemon's functions do to the answers -/

theorem over_env (fs : FsAnswers) (w : Placement) : (env fs w).over w.live = env fs w := by
  have herr : ∀ t cpus, ((env fs w).over w.live).setErrno t cpus = (env fs w).setErrno t cpus := by
    intro t cpus
    show (if w.live t then Option.filter _ (if w.live t then _ else _) else _) = if w.live t then _ else _
    split_ifs
    · rfl
    · rfl
  have hget : ∀ t, ((env fs w).over w.live).getAffinity t = (env fs w).getAffinity t := by
    intro t
    show (if w.live t then (if w.live t then _ else _) else _) = if w.live t then _ else _
    split_ifs
    · rfl
    · rfl
  exact congrArg₂ (fun get err => (⟨get, err, answers fs w.tree⟩ : Env)) (funext hget)
    (funext fun t => funext (herr t))

section

variable (fs : FsAnswers) (allow : Tid → Str → Bool) {cfg : AppConfig} {pc : ProcCache} {s : AppliedMap × Placement}

theorem eventApplyIn_live (tid pid : Tid) (comm : Str) (trust : Bool) :
    (eventApplyIn fs allow pc tid pid comm cfg trust s).2.2.2.live = s.2.live := by
  unfold eventApplyIn
  match pc.pkgLookupComm pid comm cfg with
  | (none, _) => rfl
  | (some (pkg, htr), pc') => exact (taskApplyIn_fst fs allow pc' tid pid pkg comm htr cfg trust s).2

/-- An event starts no thread and ends none. -/
theorem eventDispatchIn_live (ev : ProcEvent) : (eventDispatchIn fs allow ev cfg pc s).2.2.live = s.2.live := by
  unfold eventDispatchIn
  by_cases hexit : ev.eventType = eventExit
  · simp only [hexit, if_true]
  simp only [hexit, if_false]
  by_cases hexec : ev.eventType = eventExec
  · simp only [hexec, if_true]
    have h := @eventApplyIn_live fs allow cfg { pc with pkgs := pc.pkgs.erase ev.pid } s ev.tid ev.pid
      (commStr ev.comm) true
    generalize eventApplyIn fs allow { pc with pkgs := pc.pkgs.erase ev.pid } ev.tid ev.pid (commStr ev.comm) cfg true s
      = out at h ⊢
    match out, h with
    | (true, _), h => exact h
    | (false, _), h => exact h
  simp only [hexec, if_false]
  by_cases hfork : ev.eventType = eventFork
  · simp only [hfork, if_true]
    exact eventApplyIn_live fs allow ..
  simp only [hfork, if_false]
  by_cases hren : ev.eventType = eventRename
  · simp only [hren, if_true]
    exact eventApplyIn_live fs allow ..
  · simp only [hren, if_false]

end

/-! ### Where the threads stand -/

section

variable {parse : Str → Option JsonValue} {allow : Tid → Str → Bool} {L : Layout} {s s' : PlacedSys}

theorem Coupled.live (h : s.Coupled) : s.w.live = s.sys.live := by
  funext u
  unfold Placement.live Sys.live
  rw [Bool.eq_iff_iff, decide_eq_true_iff, AList.lookup_isSome]
  exact h u

theorem Coupled.of_live (h : s.w.live = s.sys.live) : s.Coupled := by
  intro u
  have hu := congrFun h u
  unfold Placement.live Sys.live at hu
  rw [Bool.eq_iff_iff, decide_eq_true_iff, AList.lookup_isSome] at hu
  exact hu

theorem mem_inherit {w : Placement} {u c : Tid} (hu : u ∈ w.threads) (t : Tid) :
    t ∈ (w.inherit u c).threads ↔ t = c ∨ t ∈ w.threads := by
  obtain ⟨x, hx⟩ := Option.isSome_iff_exists.mp (AList.lookup_isSome.mpr hu)
  unfold Placement.inherit
  rw [hx]
  exact AList.mem_insert _

theorem mem_takenOver {w : Placement} {t g : Tid} (ht : t ∈ w.threads) (u : Tid) :
    u ∈ (w.takenOver t g).threads ↔ u = g ∨ u ≠ t ∧ u ∈ w.threads := by
  obtain ⟨x, hx⟩ := Option.isSome_iff_exists.mp (AList.lookup_isSome.mpr ht)
  unfold Placement.takenOver
  rw [hx]
  show u ∈ (w.threads.erase t).insert g x ↔ _
  rw [AList.mem_insert, AList.mem_erase]

theorem Coupled.kernel (h : s.Coupled) {a : KernelAction} {sys : Sys} (hk : Sys.KernelCase s.sys a sys) :
    Coupled ⟨sys, s.w.kernel a⟩ := by
  have hfork : ∀ {u c : Tid} {p child : Thread}, s.sys.threads.lookup u = some p →
      Coupled ⟨s.sys.forked u c p child, s.w.inherit u c⟩ := by
    intro u c p child hu t
    refine (mem_inherit ((h u).mpr (KeyMap.mem_of_lookup hu)) t).trans ?_
    rw [h t]
    exact (AList.mem_insert s.sys.threads).symm
  cases hk with
  | clone hu hc => exact hfork hu
  | spawn hu hc => exact hfork hu
  | exec ht => exact h
  | @takeover t g x ht hl hg ho =>
      intro u
      refine (mem_takenOver ((h t).mpr (KeyMap.mem_of_lookup ht)) u).trans ?_
      rw [h u]
      show _ ↔ u ∈ (s.sys.threads.erase t).insert g _
      rw [AList.mem_insert, AList.mem_erase]
  | @rename b t comm p x hb ht hg =>
      intro u
      refine (h u).trans ?_
      show u ∈ s.sys.threads ↔ u ∈ s.sys.threads.insert t _
      rw [AList.mem_insert]
      exact ⟨Or.inr, fun hu => hu.elim (fun he => he ▸ KeyMap.mem_of_lookup ht) id⟩
  | @exit t x ht =>
      intro u
      show u ∈ s.w.threads.erase t ↔ u ∈ s.sys.threads.erase t
      rw [AList.mem_erase, AList.mem_erase, h u]

theorem Coupled.job (h : s.Coupled) (fs : FsAnswers) (j : Job) : (s.runJob allow fs j).Coupled := by
  have hsame : ∀ j, (s.sys.runJob j).threads = s.sys.threads → Coupled { s with sys := s.sys.runJob j } := by
    intro j hj u
    show u ∈ s.w.threads ↔ u ∈ (s.sys.runJob j).threads
    rw [hj]
    exact h u
  cases j with
  | del t => exact hsame _ rfl
  | record pid pkg htr k => exact hsame _ rfl
  | reap => exact hsame _ rfl
  | look r =>
      refine hsame _ ?_
      show (s.sys.lookAt r).threads = _
      rcases Sys.lookAt_case s.sys r with he | ⟨k, t, -, -, he⟩
      · rw [he]
      · rw [he]
  | bind pid pkg htr k x =>
      refine .of_live ?_
      exact (taskApplyIn_fst fs allow s.sys.cache x.tid pid pkg (scanName htr x.comm) htr s.sys.cfg true
        (s.sys.applied, s.w)).2.trans h.live
  | probe t env =>
      show (s.probe allow t).Coupled
      rcases probe_case allow s t with ⟨-, he⟩ | ⟨e, -, ⟨-, he⟩ | ⟨-, he⟩⟩
      · rw [he]
        exact h
      · rw [he]
        exact fun u => (mem_affinitySetIn s.w t e.cpus e.cpusetDir u).trans (h u)
      · rw [he]
        exact fun u => (mem_affinitySetIn s.w t e.cpus e.cpusetDir u).trans (h u)

theorem Coupled.step (h : s.Coupled) {a : PlacedSysAction} (hs : s.step parse allow L a = some s') : s'.Coupled := by
  cases step_case parse allow L hs with
  | kernel hk => exact h.kernel (Sys.kernelStep_case hk)
  | @dispatch fs ev st q ht hq => exact .of_live ((eventDispatchIn_live fs allow ev).trans h.live)
  | scan ht => exact h
  | sync ht => exact h
  | @job fs j rest ht => exact Coupled.job (s := { s with sys := { s.sys with todo := rest } }) h fs j
  | @foreign tid x htid =>
      intro u
      show u ∈ s.w.threads.insert tid x ↔ u ∈ s.sys.threads
      rw [AList.mem_insert, ← h u]
      exact ⟨fun hu => hu.elim (fun he => he ▸ htid) id, Or.inr⟩

/-! ### A run of the system -/

/-- The states are the same, apart from the answers that the open jobs will get. -/
def Alike (s : PlacedSys) (t : Sys) : Prop := ∃ todo, Job.Alike s.sys.todo todo ∧ t = { s.sys with todo := todo }

/-- The kernel does not look at the daemon's work. -/
theorem kernelStep_todo (L : Layout) (sys : Sys) (a : KernelAction) (todo : List Job) :
    ({ sys with todo := todo } : Sys).kernelStep L a =
      (sys.kernelStep L a).map fun sys' => { sys' with todo := todo } := by
  have hfree : ∀ c, ({ sys with todo := todo } : Sys).Free c ↔ sys.Free c := fun c => Iff.rfl
  have halone : ∀ t g, ({ sys with todo := todo } : Sys).Alone t g ↔ sys.Alone t g := fun t g => Iff.rfl
  cases a with
  | clone u c =>
      cases hu : sys.threads.lookup u with
      | none => simp only [Sys.kernelStep, hu, Option.map_none]
      | some p =>
          simp only [Sys.kernelStep, hu, hfree]
          split_ifs <;> rfl
  | spawn u c =>
      cases hu : sys.threads.lookup u with
      | none => simp only [Sys.kernelStep, hu, Option.map_none]
      | some p =>
          simp only [Sys.kernelStep, hu, hfree]
          split_ifs <;> rfl
  | exec t =>
      cases ht : sys.threads.lookup t with
      | none => simp only [Sys.kernelStep, ht, Option.map_none]
      | some x =>
          simp only [Sys.kernelStep, ht, halone]
          split_ifs <;> rfl
  | takeover t g =>
      cases ht : sys.threads.lookup t with
      | none => simp only [Sys.kernelStep, ht, Option.map_none]
      | some x =>
          simp only [Sys.kernelStep, ht, halone]
          split_ifs <;> rfl
  | rename b t comm =>
      cases hb : sys.threads.lookup b with
      | none => simp only [Sys.kernelStep, hb, Option.map_none]
      | some p =>
          cases ht : sys.threads.lookup t with
          | none => simp only [Sys.kernelStep, hb, ht, Option.map_none]
          | some x =>
              simp only [Sys.kernelStep, hb, ht]
              split_ifs <;> rfl
  | exit t =>
      cases ht : sys.threads.lookup t with
      | none => simp only [Sys.kernelStep, ht, Option.map_none]
      | some x =>
          simp only [Sys.kernelStep, ht]
          rfl

theorem probe_todo (sys : Sys) (t : Tid) (e : Env) (todo : List Job) :
    ({ sys with todo := todo } : Sys).probe t e = { sys.probe t e with todo := todo } := by
  have hlive : ({ sys with todo := todo } : Sys).live = sys.live := rfl
  unfold Sys.probe
  cases sys.cache.tasks.lookup t with
  | none => rfl
  | some entry =>
      dsimp only
      rw [hlive]
      split_ifs <;> rfl

/-- An event is handled with the answers that the directories give. -/
theorem handle_sys (h : s.Coupled) (fs : FsAnswers) (ev : ProcEvent) (st : Stamp) :
    (handle allow s fs ev st).sys = s.sys.handle (env fs s.w) ev st := by
  have hout := eventDispatchIn_fst fs allow ev s.sys.cfg s.sys.cache (s.sys.applied, s.w)
  unfold handle Sys.handle
  dsimp only
  rw [← h.live, over_env, ← hout]

/-- A thread is bound with the answers that the directories give. -/
theorem bind_sys (h : s.Coupled) (fs : FsAnswers) (pid : Tid) (pkg : Str) (htr : Bool) (k : ℕ) (x : TidReading) :
    (runJob allow s fs (.bind pid pkg htr k x)).sys =
      s.sys.runJob (.bind pid pkg htr k { x with env := env fs s.w }) := by
  have hout := congrArg Prod.snd (taskApplyIn_fst fs allow s.sys.cache x.tid pid pkg (scanName htr x.comm) htr
    s.sys.cfg true (s.sys.applied, s.w)).1
  have hscan : scanTask s.sys.cfg pid pkg htr (s.sys.cache, s.sys.applied) { x with env := env fs s.w } =
      ((scanTaskIn fs allow s.sys.cfg pid pkg htr (s.sys.cache, s.sys.applied, s.w) x).1,
        (scanTaskIn fs allow s.sys.cfg pid pkg htr (s.sys.cache, s.sys.applied, s.w) x).2.1) := hout.symm
  unfold runJob Sys.runJob
  dsimp only
  rw [← h.live, over_env, hscan]

/-- A bound thread is found to have exited when it is not live. -/
theorem probe_sys (h : s.Coupled) (t : Tid) (e : Env) : (s.probe allow t).sys = s.sys.probe t e := by
  have hlive : s.sys.live t = decide (t ∈ s.w.threads) := congrFun h.live.symm t
  unfold Sys.probe
  rcases probe_case allow s t with ⟨hnone, he⟩ | ⟨entry, hsome, ⟨ht, he⟩ | ⟨ht, he⟩⟩
  · rw [he, hnone]
  · rw [he, hsome]
    simp only [affinitySet_over, hlive, ht, decide_false, Bool.not_false, if_true]
  · rw [he, hsome]
    simp only [affinitySet_over, hlive, ht, decide_true, Bool.not_true, Bool.false_eq_true, if_false]

/-- Looking at an entry, read from its end: the jobs that it has added are those of an entry which has
been read with other answers. -/
theorem lookAt_backward (sys : Sys) (r : ProcReading) {todo : List Job} (h : Job.Alike (sys.lookAt r).todo todo) :
    ∃ rest r', Job.Alike sys.todo rest ∧ r'.unanswered = r.unanswered ∧
      { sys.lookAt r with todo := todo } = ({ sys with todo := rest } : Sys).lookAt r' := by
  have hproc : ∀ rest, ({ sys with todo := rest } : Sys).procOf = sys.procOf := fun _ => rfl
  cases hk : r.pid.bind sys.procOf with
  | none =>
      have hsame : ∀ rest, ({ sys with todo := rest } : Sys).lookAt r = { sys with todo := rest } := fun rest => by
        simp only [Sys.lookAt, hproc, hk]
      have hself : sys.lookAt r = sys := hsame sys.todo
      rw [hself] at h ⊢
      exact ⟨todo, r, h, rfl, (hsame todo).symm⟩
  | some k =>
      cases ht : scanTarget sys.cfg r with
      | none =>
          have hsame : ∀ rest, ({ sys with todo := rest } : Sys).lookAt r = { sys with todo := rest } := fun rest => by
            simp only [Sys.lookAt, hproc, hk, ht]
          have hself : sys.lookAt r = sys := hsame sys.todo
          rw [hself] at h ⊢
          exact ⟨todo, r, h, rfl, (hsame todo).symm⟩
      | some t =>
          have hadds : ∀ rest r' t', r'.pid = r.pid → scanTarget sys.cfg r' = some t' →
              ({ sys with todo := rest } : Sys).lookAt r' =
                { sys with todo := rest ++ Sys.targetJobs t' k } := fun rest r' t' hpid ht' => by
            simp only [Sys.lookAt, hproc, hpid, hk, ht']
          have hself : sys.lookAt r = { sys with todo := sys.todo ++ Sys.targetJobs t k } := hadds sys.todo r t rfl ht
          rw [hself] at h ⊢
          obtain ⟨rest, jobs, rfl, hrest, hjobs⟩ := Job.Alike.append h
          obtain ⟨pid, pkg, hpid, hpkg, hi, rfl⟩ := scanTarget_eq_some.mp ht
          cases htids : r.tids with
          | none =>
              rw [htids] at ht hjobs
              obtain rfl : jobs = [] := List.map_eq_nil_iff.mp hjobs
              refine ⟨rest, r, hrest, rfl, ?_⟩
              rw [hadds rest r _ rfl ht]
              rfl
          | some tids =>
              rw [htids] at hjobs
              obtain ⟨binds, last, rfl, hbinds, hlast⟩ := Job.Alike.append hjobs
              obtain ⟨tids', rfl, hsame⟩ := Job.Alike.bind hbinds
              have hrecord : last = [.record pid pkg (sys.cfg.pkgHasThreadRules pkg) k] :=
                hlast.eq fun j j' hj hj' => by
                  obtain rfl := List.mem_singleton.mp hj
                  cases j' <;> cases hj'
                  rfl
              refine ⟨rest, { r with tids := some tids' }, hrest, ?_, ?_⟩
              · unfold ProcReading.unanswered
                rw [htids, Option.map_some, Option.map_some, hsame]
              · rw [hadds rest { r with tids := some tids' } _ rfl
                  (scanTarget_eq_some.mpr ⟨pid, pkg, hpid, hpkg, hi, rfl⟩), hrecord]
                rfl

/-- A job, read from its end. -/
theorem job_backward (hc : s.Coupled) (fs : FsAnswers) {j : Job} {rest todo : List Job} (ht : s.sys.todo = j :: rest)
    (h : Job.Alike (runJob allow { s with sys := { s.sys with todo := rest } } fs j).sys.todo todo) :
    ∃ t, s.Alike t ∧ Sys.step L t .job =
      some { (runJob allow { s with sys := { s.sys with todo := rest } } fs j).sys with todo := todo } := by
  -- the job itself with its answers, and what is left to do after it
  have hback : ∀ j' rest', j'.unanswered = j.unanswered → Job.Alike rest rest' →
      ({ s.sys with todo := rest' } : Sys).runJob j' =
        { (runJob allow { s with sys := { s.sys with todo := rest } } fs j).sys with todo := todo } →
      ∃ t, s.Alike t ∧ Sys.step L t .job =
        some { (runJob allow { s with sys := { s.sys with todo := rest } } fs j).sys with todo := todo } := by
    intro j' rest' hj hrest hrun
    refine ⟨{ s.sys with todo := j' :: rest' }, ⟨j' :: rest', ?_, rfl⟩, congrArg some hrun⟩
    rw [ht]
    exact congrArg₂ List.cons hj hrest
  have hcoupled : ∀ rest, Coupled { s with sys := { s.sys with todo := rest } } := fun _ => hc
  cases j with
  | del t => exact hback (.del t) todo rfl h rfl
  | record pid pkg htr k => exact hback (.record pid pkg htr k) todo rfl h rfl
  | reap =>
      obtain ⟨dels, rest', rfl, hdels, hrest⟩ := Job.Alike.append h
      obtain rfl : dels = s.sys.dead.map Job.del := hdels.eq fun j j' hj hj' => by
        obtain ⟨t, -, rfl⟩ := List.mem_map.mp hj
        cases j' <;> cases hj'
        rfl
      exact hback .reap rest' rfl hrest rfl
  | look r =>
      obtain ⟨rest', r', hrest, hr, hrun⟩ := lookAt_backward { s.sys with todo := rest } r h
      exact hback (.look r') rest' (congrArg Job.look hr) hrest hrun.symm
  | bind pid pkg htr k x =>
      refine hback (.bind pid pkg htr k { x with env := env fs s.w }) todo rfl h ?_
      rw [bind_sys (hcoupled rest) fs pid pkg htr k x]
      rfl
  | probe t e =>
      have hprobe : (probe allow { s with sys := { s.sys with todo := rest } } t).sys =
          { s.sys.probe t e with todo := rest } :=
        (probe_sys (hcoupled rest) t e).trans (probe_todo s.sys t e rest)
      have htodo : (probe allow { s with sys := { s.sys with todo := rest } } t).sys.todo = rest :=
        congrArg Sys.todo hprobe
      have hrest : Job.Alike rest todo := htodo ▸ h
      refine hback (.probe t e) todo rfl hrest ?_
      show ({ s.sys with todo := todo } : Sys).probe t e =
        { (probe allow { s with sys := { s.sys with todo := rest } } t).sys with todo := todo }
      rw [hprobe, probe_todo]

/-- **Every step is one of the system**, read from its end: it ends in what the system ends in when it
starts in what is like the state before. -/
theorem backward (hc : s.Coupled) {a : PlacedSysAction} (hs : s.step parse allow L a = some s') {t' : Sys}
    (h : s'.Alike t') : ∃ t, s.Alike t ∧ Runs.Steps (Sys.step L) (fun _ _ => True) t t' := by
  obtain ⟨todo, htodo, rfl⟩ := h
  have hself : s.Alike s.sys := ⟨s.sys.todo, rfl, rfl⟩
  cases step_case parse allow L hs with
  | @kernel a sys hk =>
      have hsame : sys.todo = s.sys.todo := (Sys.kernelStep_case hk).daemon_frame.2.2.1
      refine ⟨{ s.sys with todo := todo }, ⟨todo, hsame ▸ htodo, rfl⟩, .single (a := .kernel a) trivial ?_⟩
      show ({ s.sys with todo := todo } : Sys).kernelStep L a = _
      rw [kernelStep_todo, hk]
      rfl
  | @dispatch fs ev st q ht hq =>
      refine ⟨s.sys, hself, .single (a := .dispatch (env fs s.w)) trivial ?_⟩
      have hcoupled : Coupled { s with sys := { s.sys with queue := q } } := hc
      have hsys := @handle_sys allow _ hcoupled fs ev st
      have hnil : (handle allow { s with sys := { s.sys with queue := q } } fs ev st).sys.todo = [] := by
        rw [hsys]
        exact ht
      obtain rfl : todo = [] := by
        rw [hnil] at htodo
        exact List.map_eq_nil_iff.mp htodo
      have hstep : Sys.step L s.sys (.dispatch (env fs s.w)) =
          some (({ s.sys with queue := q } : Sys).handle (env fs s.w) ev st) := by
        simp only [Sys.step, hq, ht, List.isEmpty_nil, if_true]
      have hwith : ∀ sys : Sys, sys.todo = [] → sys = { sys with todo := [] } := fun sys h => by rw [← h]
      exact hstep.trans (congrArg some (hsys.symm.trans (hwith _ hnil)))
  | @scan fs data mtime cache target dir ht =>
      obtain ⟨dels, looks, rfl, hdels, hlooks⟩ := Job.Alike.append htodo
      obtain ⟨dir', rfl⟩ := hlooks.look
      obtain rfl : dels = s.sys.applied.keys.map Job.del := hdels.eq fun j j' hj hj' => by
        obtain ⟨t, -, rfl⟩ := List.mem_map.mp hj
        cases j' <;> cases hj'
        rfl
      refine ⟨s.sys, hself, .single (a := .scan (s.loaded parse fs data mtime cache) target dir') trivial ?_⟩
      simp only [Sys.step, ht, List.isEmpty_nil, if_true]
  | sync ht =>
      obtain rfl := htodo.eq fun j j' hj hj' => by
        rcases List.mem_append.mp hj with hj | hj
        · obtain ⟨t, -, rfl⟩ := List.mem_map.mp hj
          cases j' <;> cases hj'
          rfl
        · obtain rfl := List.mem_singleton.mp hj
          cases j' <;> cases hj'
          rfl
      refine ⟨s.sys, hself, .single (a := .sync fun _ => allAlive) trivial ?_⟩
      simp only [Sys.step, ht, List.isEmpty_nil, if_true]
  | @job fs j rest ht =>
      obtain ⟨t, halike, hstep⟩ := job_backward (L := L) hc fs ht htodo
      exact ⟨t, halike, .single (a := .job) trivial hstep⟩
  | foreign htid => exact ⟨_, ⟨todo, htodo, rfl⟩, .refl _⟩

/-- **A state that is reached is one of the system**, and the threads that stand somewhere are its live
ones: whatever holds of every state of the system, in whichever way the operating system answers,
holds on the directories and the threads. -/
theorem reachable_sys (parse : Str → Option JsonValue) (allow : Tid → Str → Bool) (L : Layout) (s : PlacedSys)
    (h : Runs.Reachable (step parse allow L) (fun _ _ => True) (Init parse) s) :
    Runs.Reachable (Sys.step L) (fun _ _ => True) Sys.Init s.sys ∧ s.Coupled := by
  have hsim : Runs.BackwardSimulation (step parse allow L) (fun s _ => True ∧ s.Coupled) (Sys.step L)
      (fun _ _ => True) Alike := fun s a s₁ t₁ hok hs hR => backward hok.2 hs hR
  have hinit : ∀ s t, Init parse s → s.Alike t → t.Init := by
    rintro s t h₀ ⟨todo, htodo, rfl⟩
    have hnil : todo = [] := by
      rw [h₀.sys.todo] at htodo
      exact List.map_eq_nil_iff.mp htodo
    rw [hnil, ← h₀.sys.todo]
    exact h₀.sys
  have hcoupled : ∀ s, Init parse s → s.Coupled := fun _ h₀ => h₀.coupled
  have hstep : ∀ (s : PlacedSys) a s', s.Coupled → True → s.step parse allow L a = some s' → s'.Coupled :=
    fun _ _ _ hc _ hs => hc.step hs
  exact ⟨hsim.reachable hinit (h.strengthen hcoupled hstep) ⟨s.sys.todo, rfl, rfl⟩,
    h.invariant hcoupled hstep⟩

end

/-- A daemon that has loaded its file, and the process 100. -/
def withProcess (s : Placed) (name : Str) : PlacedSys :=
  { sys := { Sys.oneProcess name with cfg := s.cfg, target := (commMapInit ∅ s.cfg.pkgSet 8192).1 }
    w := { s.w with threads := (∅ : KeyMap Tid Standing).insert 100 ⟨fromRange "0-7".toList, baseCpuset⟩ } }

theorem init_withProcess {parse : Str → Option JsonValue} {s : Placed} (h : Placed.Init parse s) (name : Str) :
    Init parse (withProcess s name) := by
  have hone := Sys.oneProcess_init name
  obtain ⟨hm, -, hloaded⟩ := h
  refine ⟨⟨⟨hone.wf.group, hone.wf.past, hone.wf.queued⟩, hone.applied, hone.queue, hone.cache, hone.todo, hone.dead⟩,
    fun u => ?_, hm, rfl, hloaded⟩
  show u ∈ (∅ : KeyMap Tid Standing).insert 100 _ ↔ u ∈ (∅ : KeyMap Tid Thread).insert 100 _
  rw [AList.mem_insert, AList.mem_insert]
  exact or_congr_right (iff_of_false (AList.notMem_empty u) (AList.notMem_empty u))

/-- The device of `Placed.deployed`, with the process 100 on it. -/
def deployedSys (name : Str) : PlacedSys := withProcess Placed.deployed name

theorem init_deployedSys (name : Str) : Init (parseOf [Placed.oneEntry]) (deployedSys name) :=
  init_withProcess Placed.init_deployed name

theorem deployedSys_start (name : Str) : (deployedSys name).sys.queue = [] ∧
    (deployedSys name).sys.cfg = Placed.deployed.cfg ∧ (deployedSys name).w.tree = Placed.deployed.w.tree := by
  have h : ∀ s, (withProcess s name).sys.queue = [] ∧ (withProcess s name).sys.cfg = s.cfg ∧
      (withProcess s name).w.tree = s.w.tree := fun _ => ⟨rfl, rfl, rfl⟩
  exact h Placed.deployed

/-- The process takes the name `com.a`, which is reported and handled. -/
theorem reachable_sys_renamed :
    ∃ s, Runs.run (step (parseOf [Placed.oneEntry]) (fun _ _ => true) Sys.someLayout) (deployedSys "zygote".toList)
        [.kernel (.rename 100 100 (Comm.ofText "com.a".toList)), .dispatch .allows] = some s ∧
      100 ∈ s.sys.cache.tasks ∧ Runs.Reachable (Sys.step Sys.someLayout) (fun _ _ => True) Sys.Init s.sys ∧
      s.Coupled := by
  obtain ⟨s, hs, hp⟩ := Runs.exists_run (step (parseOf [Placed.oneEntry]) (fun _ _ => true) Sys.someLayout)
    (deployedSys "zygote".toList) [.kernel (.rename 100 100 (Comm.ofText "com.a".toList)), .dispatch .allows]
    (fun s => decide (100 ∈ s.sys.cache.tasks)) (by decide +kernel)
  exact ⟨s, hs, of_decide_eq_true hp, reachable_sys (parseOf [Placed.oneEntry]) (fun _ _ => true) Sys.someLayout s
    ⟨_, init_deployedSys "zygote".toList, Runs.steps_of_run (fun _ _ _ => trivial) hs⟩⟩

end PlacedSys

end AetherOptExt
