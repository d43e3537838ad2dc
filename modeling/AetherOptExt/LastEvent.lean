import AetherOptExt.PlacedSystem
import AetherOptExt.Quiescence

/-! # What the last event of a thread puts in force

A hook reports what a thread does, the daemon handles the report later, and only then the thread is
moved.  If the thread does nothing that changes it in between and afterwards, it ends with the CPUs
that the rules give for its last report, in every interleaving with the other threads, with scans
while the report waits, with corrections, and with the creations of directories that fail
(`last_event_enforces`).  A scan after the report was handled answers with the command line of the
process, which need not give the same package. -/

namespace AetherOptExt

open CpuSet ProcCache Placement

/-! ### What is left for the thread -/

/-- The thread stands as the binding of its event says; a thread rule's binding that it had before may
have stayed where the event gives the package's. -/
def Landed (allow : Tid → Str → Bool) (cfg : AppConfig) (p : Str × Bool) (ev : ProcEvent) (pc : ProcCache)
    (w : Placement) : Prop :=
  ∀ cpus isThreadRule, binding cfg cfg.topo p.1 (eventName ev p) = some (cpus, isThreadRule) →
    Stands allow cfg.topo ev.pid cpus isThreadRule ev.tid pc w ∨
      (isThreadRule = false ∧ ∃ e, pc.tasks.lookup ev.tid = some e ∧ e.isThreadRule = true)

section

variable {allow : Tid → Str → Bool} {cfg : AppConfig} {p : Str × Bool} {ev : ProcEvent} {pc pc' : ProcCache}
  {w w' : Placement}

theorem Landed.congr (h : Landed allow cfg p ev pc w) (htasks : pc'.tasks.lookup ev.tid = pc.tasks.lookup ev.tid)
    (hthreads : w'.threads.lookup ev.tid = w.threads.lookup ev.tid) : Landed allow cfg p ev pc' w' := by
  intro cpus isThreadRule hb
  unfold Stands
  rw [htasks, hthreads]
  exact h cpus isThreadRule hb

/-- An event that meets its fate lands its live thread. -/
theorem landed_of_met (hb : Binds ev) (hr : resolved pc cfg ev = some p) (hl : w.live ev.tid = true)
    (hmet : (fate cfg pc w ev).Met allow cfg.topo ev.tid ev.pid (pc.tasks.lookup ev.tid) (w.threads.lookup ev.tid)
      pc' w') : Landed allow cfg p ev pc' w' := by
  intro cpus isThreadRule hbind
  unfold fate at hmet
  rw [if_neg hb.ne_exit, if_pos hb, hr] at hmet
  dsimp only at hmet
  rw [hbind, hl] at hmet
  unfold answerFate at hmet
  dsimp only at hmet
  split_ifs at hmet with hk htrue
  · obtain ⟨hflag, hold⟩ := Bool.and_eq_true_iff.mp hk
    obtain ⟨e, he, hrule⟩ := (Option.any_eq_true _ _).mp hold
    exact .inr ⟨Bool.not_eq_true' _ ▸ hflag, e, hmet.1.trans he, hrule⟩
  · exact .inl hmet
  · exact absurd rfl htrue

/-- Putting a thread where its entry says changes nothing for one that stands there. -/
theorem Landed.settle (h : Landed allow cfg p ev pc w) {e : TaskEntry} (he : pc.tasks.lookup ev.tid = some e)
    {topo : CpuTopology} {tree : CpusetTree} (hthreads : w'.threads.lookup ev.tid =
      (w.threads.lookup ev.tid).map (settled allow topo tree ev.tid e.cpusetDir e.cpus)) :
    Landed allow cfg p ev pc w' := by
  intro cpus isThreadRule hb
  rcases h cpus isThreadRule hb with ⟨e', x, he', hpid, hc, hflag, hx, hmask⟩ | hkept
  · obtain rfl := Option.some.inj (he.symm.trans he')
    have hx' : w'.threads.lookup ev.tid = some (settled allow topo tree ev.tid e.cpusetDir e.cpus x) := by
      rw [hthreads, hx]
      rfl
    refine .inl ⟨e, _, he, hpid, hc, hflag, hx', fun hmov => ?_⟩
    unfold settled
    rw [if_pos ((hmask hmov).trans hc.symm)]
    exact hmask hmov
  · exact .inr hkept

end

namespace PlacedSys

variable {parse : Str → Option JsonValue} {allow : Tid → Str → Bool} {L : Layout} {s s' : PlacedSys}

/-! ### The directories -/

/-- The directories that rules and entries name are there, also between two pieces of work. -/
theorem stocked_runJob (h : s.placed.Stocked) (fs : FsAnswers) (j : Job) : (runJob allow s fs j).placed.Stocked := by
  cases j with
  | del t => exact ⟨h.mems, h.rules, h.ready⟩
  | record pid pkg htr k => exact ⟨h.mems, h.rules, h.ready⟩
  | look r =>
      show Placed.Stocked ⟨(s.sys.lookAt r).cfg, (s.sys.lookAt r).cache, (s.sys.lookAt r).applied, s.w⟩
      rcases Sys.lookAt_case s.sys r with he | ⟨k, t, -, -, he⟩
      · rw [he]
        exact h
      · rw [he]
        exact h
  | reap =>
      refine ⟨h.mems, h.rules, fun u e he => h.ready u e ?_⟩
      change (s.sys.dead.foldl taskDel s.sys.cache).tasks.lookup u = some e at he
      rw [foldl_taskDel_tasks, KeyMap.lookup_eraseAll] at he
      split_ifs at he
      exact he
  | bind pid pkg htr k x =>
      have ht := touches_taskApplyIn fs allow s.sys.cache (s.sys.applied, s.w) h.mems h.rules x.tid pid pkg
        (scanName htr x.comm) htr true
      exact ⟨h.mems, ht.rules h.rules, ht.ready h.ready⟩
  | probe t e =>
      show (s.probe allow t).placed.Stocked
      have hmoved : ∀ (entry : TaskEntry) (dead : List Tid), Placed.Stocked (placed ⟨{ s.sys with dead := dead },
          (s.w.affinitySetIn allow t entry.cpus entry.cpusetDir s.sys.cfg.topo).2.2⟩) := by
        intro entry dead
        have htree := @affinitySetIn_tree allow s.sys.cfg.topo s.w t entry.cpus entry.cpusetDir
        refine ⟨h.mems, fun r hr hdir => ?_, fun u e he hdir => ?_⟩
        · show s.sys.cfg.topo.cpusetEnabled = true ∧ HasDir (affinitySetIn ..).2.2.tree _ _
          rw [htree]
          exact h.rules r hr hdir
        · show s.sys.cfg.topo.cpusetEnabled = true ∧ HasDir (affinitySetIn ..).2.2.tree _ _
          rw [htree]
          exact h.ready u e he hdir
      rcases probe_case allow s t with ⟨-, he⟩ | ⟨entry, -, ⟨-, he⟩ | ⟨-, he⟩⟩
      · rw [he]
        exact h
      · rw [he]
        exact hmoved entry _
      · rw [he]
        exact hmoved entry s.sys.dead

theorem kernel_tree (w : Placement) (a : KernelAction) : (w.kernel a).tree = w.tree := by
  have hinherit : ∀ u c, (w.inherit u c).tree = w.tree := by
    intro u c
    unfold Placement.inherit
    cases w.threads.lookup u with
    | none => rfl
    | some x => rfl
  cases a with
  | clone u c => exact hinherit u c
  | spawn u c => exact hinherit u c
  | exec t => rfl
  | takeover t g =>
      show (w.takenOver t g).tree = w.tree
      unfold Placement.takenOver
      cases w.threads.lookup t with
      | none => rfl
      | some x => rfl
  | rename b t comm => rfl
  | exit t => rfl

theorem loaded_ready (h : s.placed.Stocked) (fs : FsAnswers) (data : Option Str) (mtime : Option ℕ)
    (cache : Option Str) : (s.loaded parse fs data mtime cache).topo = s.sys.cfg.topo ∧
      RulesReady s.sys.cfg.topo (s.loaded parse fs data mtime cache).rules
        (loadIn fs parse s.sys.cfg.topo data mtime s.w.tree).2 := by
  unfold loaded
  cases hl : (loadIn fs parse s.sys.cfg.topo data mtime s.w.tree).1 with
  | none =>
      have hrules : RulesReady s.sys.cfg.topo s.sys.cfg.rules
          (loadIn fs parse s.sys.cfg.topo data mtime s.w.tree).2 := fun r hr hdir =>
        (h.rules r hr hdir).imp_right fun hd => hd.loadIn fs parse data mtime
      exact ⟨rfl, hrules⟩
  | some cfg =>
      obtain ⟨htopo, hrules⟩ := rulesReady_loadIn h.mems hl
      exact ⟨htopo, hrules.mergeCache parse cache⟩

theorem stocked_step (h : s.placed.Stocked) {a : PlacedSysAction} (hs : s.step parse allow L a = some s') :
    s'.placed.Stocked := by
  cases step_case parse allow L hs with
  | @kernel a sys hk =>
      obtain ⟨hcache, hcfg, -, -⟩ := (Sys.kernelStep_case hk).daemon_frame
      show Placed.Stocked ⟨sys.cfg, sys.cache, sys.applied, s.w.kernel a⟩
      rw [hcache, hcfg]
      refine ⟨h.mems, ?_, ?_⟩
      · show RulesReady _ _ (s.w.kernel a).tree
        rw [kernel_tree]
        exact h.rules
      · intro u e he
        show EntryReady _ (s.w.kernel a).tree e
        rw [kernel_tree]
        exact h.ready u e he
  | @dispatch fs ev st q ht hq =>
      have ht := touches_eventDispatchIn fs allow s.sys.cache (s.sys.applied, s.w) h.mems h.rules ev
      exact ⟨h.mems, ht.rules h.rules, ht.ready h.ready⟩
  | @scan fs data mtime cache target dir ht =>
      obtain ⟨htopo, hrules⟩ := @loaded_ready parse s h fs data mtime cache
      refine ⟨?_, ?_, fun u e he => by cases he⟩
      · show (s.loaded parse fs data mtime cache).topo.memsStr ≠ []
        rw [htopo]
        exact h.mems
      · show RulesReady (s.loaded parse fs data mtime cache).topo _ _
        rw [htopo]
        exact hrules
  | sync ht => exact ⟨h.mems, h.rules, h.ready⟩
  | @job fs j rest ht =>
      exact stocked_runJob (s := { s with sys := { s.sys with todo := rest } }) ⟨h.mems, h.rules, h.ready⟩ fs j
  | foreign htid => exact ⟨h.mems, h.rules, h.ready⟩

/-! ### Frames -/

/-- A job does not touch the threads of the kernel, the queue and the configuration. -/
theorem runJob_frame (s : PlacedSys) (fs : FsAnswers) (j : Job) :
    (runJob allow s fs j).sys.threads = s.sys.threads ∧ (runJob allow s fs j).sys.queue = s.sys.queue ∧
      (runJob allow s fs j).sys.cfg = s.sys.cfg := by
  cases j with
  | del t => exact ⟨rfl, rfl, rfl⟩
  | record pid pkg htr k => exact ⟨rfl, rfl, rfl⟩
  | reap => exact ⟨rfl, rfl, rfl⟩
  | bind pid pkg htr k x => exact ⟨rfl, rfl, rfl⟩
  | look r =>
      show (s.sys.lookAt r).threads = _ ∧ (s.sys.lookAt r).queue = _ ∧ (s.sys.lookAt r).cfg = _
      rcases Sys.lookAt_case s.sys r with he | ⟨k, t, -, -, he⟩
      · rw [he]
        exact ⟨rfl, rfl, rfl⟩
      · rw [he]
        exact ⟨rfl, rfl, rfl⟩
  | probe t e =>
      show (s.probe allow t).sys.threads = _ ∧ (s.probe allow t).sys.queue = _ ∧ (s.probe allow t).sys.cfg = _
      rcases probe_case allow s t with ⟨-, he⟩ | ⟨entry, -, ⟨-, he⟩ | ⟨-, he⟩⟩
      · rw [he]
        exact ⟨rfl, rfl, rfl⟩
      · rw [he]
        exact ⟨rfl, rfl, rfl⟩
      · rw [he]
        exact ⟨rfl, rfl, rfl⟩

/-- A kernel action that does not involve a thread leaves it where it stands. -/
theorem kernel_lookup (w : Placement) {a : KernelAction} {u : Tid} (h : ¬ a.Involves u) :
    (w.kernel a).threads.lookup u = w.threads.lookup u := by
  have hinherit : ∀ b c, c ≠ u → (w.inherit b c).threads.lookup u = w.threads.lookup u := by
    intro b c hne
    unfold Placement.inherit
    cases w.threads.lookup b with
    | none => rfl
    | some x => exact (KeyMap.lookup_insert w.threads c u x).trans (if_neg (Ne.symm hne))
  cases a with
  | clone b c => exact hinherit b c h
  | spawn b c => exact hinherit b c h
  | exec t => rfl
  | takeover t g =>
      obtain ⟨hut, hug⟩ := not_or.mp h
      show (w.takenOver t g).threads.lookup u = _
      unfold Placement.takenOver
      cases w.threads.lookup t with
      | none => rfl
      | some x =>
          refine (KeyMap.lookup_insert (w.threads.erase t) g u x).trans ?_
          rw [if_neg (Ne.symm hug), KeyMap.lookup_erase, if_neg (Ne.symm hut)]
  | rename b t comm => rfl
  | exit t => exact (KeyMap.lookup_erase w.threads t u).trans (if_neg (Ne.symm h))

/-- A kernel action without effect on the system has none on where threads stand. -/
theorem kernel_idle {a : KernelAction} {sys : Sys} (hk : Sys.KernelCase s.sys a sys) (he : sys = s.sys) :
    s.w.kernel a = s.w := by
  have hclock : ∀ (u c : Tid) (p child : Thread), s.sys.forked u c p child ≠ s.sys := fun u c p child h => by
    have hc : s.sys.clock + 1 = s.sys.clock := congrArg Sys.clock h
    omega
  cases hk with
  | clone hu hc => exact absurd he (hclock _ _ _ _)
  | spawn hu hc => exact absurd he (hclock _ _ _ _)
  | exec ht => rfl
  | takeover ht hl hg ho =>
      have hc : s.sys.clock + 1 = s.sys.clock := congrArg Sys.clock he
      omega
  | rename ha ht hg => rfl
  | @exit t x ht =>
      have hthreads : (s.sys.threads.erase t).lookup t = s.sys.threads.lookup t :=
        congrArg (fun m => m.lookup t) (congrArg Sys.threads he)
      rw [AList.lookup_erase, ht] at hthreads
      cases hthreads

/-! ### The last event of a thread -/

/-- A step after the last event of a thread.  What involves the thread has no effect; the event, with no
other one of its thread behind it, is handled under the package `p`, on a device with cpusets; until
then the daemon may scan, and another program may move the thread. -/
def Undisturbed (L : Layout) (ev : ProcEvent) (st : Stamp) (p : Str × Bool) (s : PlacedSys) : PlacedSysAction → Prop
  | .kernel a => a.Involves ev.tid → ∀ sys, s.sys.kernelStep L a = some sys → sys = s.sys
  | .dispatch _ => ∀ q, s.sys.queue = (ev, st) :: q → (∀ e ∈ q, e.1.tid ≠ ev.tid) →
      resolved s.sys.cache s.sys.cfg ev = some p ∧ BaseReady s.sys.cfg.topo s.w.tree
  | .scan .. => (ev, st) ∈ s.sys.queue
  | .sync => True
  | .job _ => True
  | .foreign tid _ => tid = ev.tid → (ev, st) ∈ s.sys.queue

/-- The job is one of a correction. -/
def Correcting : Job → Prop
  | .del _ => True
  | .probe _ _ => True
  | .reap => True
  | _ => False

/-- The event has been handled, and its thread is where it belongs. -/
structure Handled (allow : Tid → Str → Bool) (ev : ProcEvent) (p : Str × Bool) (s : PlacedSys) : Prop where
  none_waits : ∀ e ∈ s.sys.queue, e.1.tid ≠ ev.tid
  not_dead : ev.tid ∉ s.sys.dead
  correcting : ∀ j ∈ s.sys.todo, Correcting j
  landed : Landed allow s.sys.cfg p ev s.sys.cache s.w

/-- The event waits as the last one of its thread. -/
def Waits (ev : ProcEvent) (st : Stamp) (s : PlacedSys) : Prop :=
  ∃ pre post, s.sys.queue = pre ++ (ev, st) :: post ∧ ∀ e ∈ post, e.1.tid ≠ ev.tid

theorem Waits.mem {ev : ProcEvent} {st : Stamp} (h : s.Waits ev st) : (ev, st) ∈ s.sys.queue := by
  obtain ⟨pre, post, hq, -⟩ := h
  rw [hq]
  exact List.mem_append_right pre List.mem_cons_self

section

variable {ev : ProcEvent} {st : Stamp} {p : Str × Bool} {a : PlacedSysAction}

/-- An undisturbed thread stays as it is. -/
theorem thread_step (hok : Undisturbed L ev st p s a) (hs : s.step parse allow L a = some s') :
    s'.sys.threads.lookup ev.tid = s.sys.threads.lookup ev.tid := by
  cases step_case parse allow L hs with
  | @kernel a sys hk =>
      by_cases hi : a.Involves ev.tid
      · rw [hok hi sys hk]
      · exact ((Sys.kernelStep_case hk).bystander hi).1
  | dispatch ht hq => rfl
  | scan ht => rfl
  | sync ht => rfl
  | @job fs j rest ht =>
      rw [(runJob_frame { s with sys := { s.sys with todo := rest } } fs j).1]
  | foreign htid => rfl

/-- The event waits on, or it is handled. -/
theorem Waits.step (h : s.Waits ev st) (hb : Binds ev) (hstocked : s.placed.Stocked) (hcoupled : s.Coupled)
    (hdead : s.sys.todo = [] → s.sys.dead = []) (hlive : ev.tid ∈ s.sys.threads) (hok : Undisturbed L ev st p s a)
    (hs : s.step parse allow L a = some s') : s'.Waits ev st ∨ s'.Handled allow ev p := by
  have hkeep : ∀ s' : PlacedSys, s'.sys.queue = s.sys.queue → s'.Waits ev st := by
    intro s' hq
    unfold Waits
    rw [hq]
    exact h
  cases step_case parse allow L hs with
  | @kernel a sys hk =>
      by_cases hi : a.Involves ev.tid
      · exact .inl (hkeep _ (congrArg Sys.queue (hok hi sys hk)))
      · obtain ⟨-, new, hqueue, hnew⟩ := (Sys.kernelStep_case hk).bystander hi
        obtain ⟨pre, post, hq, hpost⟩ := h
        refine .inl ⟨pre, post ++ new, ?_, fun e he => (List.mem_append.mp he).elim (hpost e) (hnew e)⟩
        show sys.queue = _
        rw [hqueue, hq, List.append_assoc, List.cons_append]
  | @dispatch fs ev' st' q ht hq =>
      obtain ⟨pre, post, hsplit, hpost⟩ := h
      rw [hq] at hsplit
      cases pre with
      | nil =>
          -- the event itself is handled, while its thread is live
          obtain ⟨he, rfl⟩ := List.cons.inj hsplit
          obtain ⟨rfl, rfl⟩ := Prod.mk.inj he
          obtain ⟨hr, hbase⟩ := hok q hq hpost
          have hl : s.w.live ev'.tid = true := decide_eq_true ((hcoupled ev'.tid).mpr hlive)
          have hmet := @met_eventDispatchIn fs allow s.sys.cfg s.sys.cache (s.sys.applied, s.w) ev' hstocked.mems
            hstocked.rules hbase
          refine .inr ⟨hpost, ?_, ?_, landed_of_met hb hr hl hmet⟩
          · show ev'.tid ∉ s.sys.dead
            rw [hdead ht]
            exact List.not_mem_nil
          · intro j hj
            change j ∈ s.sys.todo at hj
            rw [ht] at hj
            exact absurd hj List.not_mem_nil
      | cons e pre =>
          obtain ⟨-, hrest⟩ := List.cons.inj hsplit
          exact .inl ⟨pre, post, hrest, hpost⟩
  | scan ht => exact .inl (hkeep _ rfl)
  | sync ht => exact .inl (hkeep _ rfl)
  | @job fs j rest ht =>
      exact .inl (hkeep _ (runJob_frame { s with sys := { s.sys with todo := rest } } fs j).2.1)
  | foreign htid => exact .inl (hkeep _ rfl)

/-- A job of a correction leaves the thread where it belongs. -/
theorem Handled.job (h : s.Handled allow ev p) (hlive : ev.tid ∈ s.w.threads) (fs : FsAnswers) {j : Job}
    (hj : Correcting j) : (runJob allow s fs j).Handled allow ev p := by
  cases j with
  | del t => exact ⟨h.none_waits, h.not_dead, h.correcting, h.landed⟩
  | look r => exact hj.elim
  | bind pid pkg htr k x => exact hj.elim
  | record pid pkg htr k => exact hj.elim
  | reap =>
      refine ⟨h.none_waits, List.not_mem_nil, fun j hj => ?_, h.landed.congr ?_ rfl⟩
      · rcases List.mem_append.mp hj with hj | hj
        · obtain ⟨t, -, rfl⟩ := List.mem_map.mp hj
          trivial
        · exact h.correcting j hj
      · show (s.sys.dead.foldl taskDel s.sys.cache).tasks.lookup ev.tid = _
        rw [foldl_taskDel_tasks, KeyMap.lookup_eraseAll, if_neg h.not_dead]
  | probe t e =>
      show (s.probe allow t).Handled allow ev p
      rcases probe_case allow s t with ⟨-, he⟩ | ⟨entry, hentry, hcase⟩
      · rw [he]
        exact h
      -- the thread itself is settled already
      have hlanded : Landed allow s.sys.cfg p ev s.sys.cache
          (s.w.affinitySetIn allow t entry.cpus entry.cpusetDir s.sys.cfg.topo).2.2 := by
        have hlookup := @affinitySetIn_lookup allow s.sys.cfg.topo s.w t entry.cpus entry.cpusetDir ev.tid
        by_cases hu : ev.tid = t
        · subst hu
          rw [if_pos rfl] at hlookup
          exact h.landed.settle hentry hlookup
        · rw [if_neg hu] at hlookup
          exact h.landed.congr rfl hlookup
      rcases hcase with ⟨ht, he⟩ | ⟨-, he⟩
      · rw [he]
        refine ⟨h.none_waits, fun hm => ?_, h.correcting, hlanded⟩
        rcases List.mem_append.mp hm with hm | hm
        · exact h.not_dead hm
        · exact ht (List.mem_singleton.mp hm ▸ hlive)
      · rw [he]
        exact ⟨h.none_waits, h.not_dead, h.correcting, hlanded⟩

theorem Handled.step (h : s.Handled allow ev p) (hstocked : s.placed.Stocked) (hlive : ev.tid ∈ s.w.threads)
    (hok : Undisturbed L ev st p s a) (hs : s.step parse allow L a = some s') : s'.Handled allow ev p := by
  have hnot : (ev, st) ∉ s.sys.queue := fun hm => h.none_waits _ hm rfl
  cases step_case parse allow L hs with
  | @kernel a sys hk =>
      have hcase := Sys.kernelStep_case hk
      by_cases hi : a.Involves ev.tid
      · have hidle := hok hi sys hk
        rw [kernel_idle hcase hidle, hidle]
        exact h
      · obtain ⟨-, new, hqueue, hnew⟩ := hcase.bystander hi
        obtain ⟨hcache, hcfg, htodo, -⟩ := hcase.daemon_frame
        have hdead : sys.dead = s.sys.dead := by cases hcase <;> rfl
        refine ⟨fun e he => ?_, ?_, ?_, ?_⟩
        · change e ∈ sys.queue at he
          rw [hqueue] at he
          exact (List.mem_append.mp he).elim (h.none_waits e) (hnew e)
        · show ev.tid ∉ sys.dead
          rw [hdead]
          exact h.not_dead
        · show ∀ j ∈ sys.todo, Correcting j
          rw [htodo]
          exact h.correcting
        · show Landed allow sys.cfg p ev sys.cache (s.w.kernel a)
          rw [hcfg, hcache]
          exact h.landed.congr rfl (kernel_lookup s.w hi)
  | @dispatch fs ev' st' q ht hq =>
      have hother : ev.tid ≠ ev'.tid := Ne.symm (h.none_waits (ev', st') (by rw [hq]; exact List.mem_cons_self))
      obtain ⟨htasks, hthreads⟩ := (touches_eventDispatchIn fs allow s.sys.cache (s.sys.applied, s.w) hstocked.mems
        hstocked.rules ev').others ev.tid hother
      refine ⟨fun e he => h.none_waits e ?_, h.not_dead, h.correcting, h.landed.congr htasks hthreads⟩
      rw [hq]
      exact List.mem_cons_of_mem _ he
  | scan ht => exact absurd hok hnot
  | sync ht =>
      refine ⟨h.none_waits, h.not_dead, fun j hj => ?_, h.landed⟩
      rcases List.mem_append.mp hj with hj | hj
      · obtain ⟨t, -, rfl⟩ := List.mem_map.mp hj
        trivial
      · rw [List.mem_singleton.mp hj]
        trivial
  | @job fs j rest ht =>
      have hj : Correcting j := h.correcting j (by rw [ht]; exact List.mem_cons_self)
      refine Handled.job (s := { s with sys := { s.sys with todo := rest } }) ⟨h.none_waits, h.not_dead, ?_, h.landed⟩
        hlive fs hj
      intro i hi
      exact h.correcting i (by rw [ht]; exact List.mem_cons_of_mem j hi)
  | @foreign tid x htid =>
      have hne : ev.tid ≠ tid := fun he => hnot (hok he.symm)
      exact ⟨h.none_waits, h.not_dead, h.correcting,
        h.landed.congr rfl ((KeyMap.lookup_insert s.w.threads tid ev.tid x).trans (if_neg hne))⟩

end

/-- **The last event of a thread puts it in force**, from the hook to the mask.  Once no event of a live
thread waits, whose last effective action was reported (other than as a new process or under another
thread's id) and whose report was handled under the package `p`, the thread is cached with the CPUs
that the rules of `p` give for the report and stands under exactly these (if they are present and the
kernel lets it be moved), whatever the other threads do and whichever creations of directories fail,
if the daemon has not begun a scan since; or the package's rules decide, and a thread rule's binding
that it had before has stayed. -/
theorem last_event_enforces (parse : Str → Option JsonValue) (allow : Tid → Str → Bool) (L : Layout)
    (s₀ s₁ s : PlacedSys) (a : KernelAction) (ev : ProcEvent) (st : Stamp) (p : Str × Bool)
    (h₀ : Runs.Reachable (step parse allow L) (fun _ _ => True) (Init parse) s₀) (ha : a.OwnGroup)
    (hs : s₀.step parse allow L (.kernel a) = some s₁) (hq : s₁.sys.queue = s₀.sys.queue ++ [(ev, st)])
    (hr : Runs.Steps (step parse allow L) (Undisturbed L ev st p) s₁ s)
    (hnone : ∀ e ∈ s.sys.queue, e.1.tid ≠ ev.tid) (hlive : ev.tid ∈ s.sys.threads) :
    Landed allow s.sys.cfg p ev s.sys.cache s.w := by
  obtain ⟨x, hx⟩ := KeyMap.mem_iff_lookup.mp hlive
  -- the thread is there all the time, so it has not just exited
  have hthread : s₁.sys.threads.lookup ev.tid = some x := by
    rw [← hx]
    exact (hr.invariant (I := fun s => s.sys.threads.lookup ev.tid = s₁.sys.threads.lookup ev.tid)
      (fun s b s' hI hok hs => (thread_step hok hs).trans hI) rfl).symm
  have hstart : Runs.Reachable (step parse allow L) (fun _ _ => True) (Init parse) s₁ := by
    obtain ⟨s₂, h₂, hr₂⟩ := h₀
    exact ⟨s₂, h₂, hr₂.tail trivial hs⟩
  have hstocked : s₁.placed.Stocked := by
    refine hstart.invariant (I := fun s => s.placed.Stocked) (fun _ h => Placed.stocked_init h.placed) ?_
    exact fun _ _ _ h _ hs => stocked_step h hs
  have hb : Binds ev := by
    cases step_case parse allow L hs with
    | kernel hk => exact ((Sys.kernelStep_case hk).own_report ha hq hthread).1
  have hwaits : s₁.Waits ev st := ⟨s₀.sys.queue, [], hq, fun e he => absurd he List.not_mem_nil⟩
  have hinv : (Runs.Reachable (step parse allow L) (fun _ _ => True) (Init parse) s ∧ s.placed.Stocked ∧
      s.sys.threads.lookup ev.tid = some x) ∧ (s.Waits ev st ∨ s.Handled allow ev p) := by
    refine hr.invariant (I := fun s => (Runs.Reachable (step parse allow L) (fun _ _ => True) (Init parse) s ∧
      s.placed.Stocked ∧ s.sys.threads.lookup ev.tid = some x) ∧ (s.Waits ev st ∨ s.Handled allow ev p)) ?_
      ⟨⟨hstart, hstocked, hthread⟩, .inl hwaits⟩
    rintro s b s' ⟨⟨⟨s₂, h₂, hr₂⟩, hst, hx⟩, hstate⟩ hok hs
    obtain ⟨hsys, hcoupled⟩ := reachable_sys parse allow L s ⟨s₂, h₂, hr₂⟩
    have hmem : ev.tid ∈ s.sys.threads := KeyMap.mem_of_lookup hx
    refine ⟨⟨⟨s₂, h₂, hr₂.tail trivial hs⟩, stocked_step hst hs, (thread_step hok hs).trans hx⟩, ?_⟩
    rcases hstate with hw | hh
    · exact hw.step hb hst hcoupled (Sys.dead_nil hsys) hmem hok hs
    · exact .inr (hh.step hst ((hcoupled ev.tid).mpr hmem) hok hs)
  rcases hinv.2 with hw | hh
  · exact absurd rfl (hnone _ hw.mem)
  · exact hh.landed

/-- The process takes the name `com.a`. -/
def namedA : ProcEvent := ⟨100, 100, Comm.ofText "com.a".toList, eventRename⟩

/-- The report of the new name waits while another program moves the thread. -/
theorem last_event_enforces_renamed :
    ∃ s₁ s₂ s, (deployedSys "zygote".toList).step (parseOf [Placed.oneEntry]) (fun _ _ => true) Sys.someLayout
        (.kernel (.rename 100 100 namedA.comm)) = some s₁ ∧
      s₁.step (parseOf [Placed.oneEntry]) (fun _ _ => true) Sys.someLayout
        (.foreign 100 ⟨fromRange "7".toList, baseCpuset⟩) = some s₂ ∧
      s₂.step (parseOf [Placed.oneEntry]) (fun _ _ => true) Sys.someLayout (.dispatch .allows) = some s ∧
      100 ∈ s.sys.cache.tasks ∧ (s.w.threads.lookup 100).map Standing.mask = some (fromRange "0-3".toList) := by
  obtain ⟨s₁, h₁, hp⟩ := (Option.any_eq_true (fun s₁ : PlacedSys =>
    decide (s₁.sys.queue = [(namedA, ⟨0, 0⟩)]) &&
      decide (resolved s₁.sys.cache s₁.sys.cfg namedA = some ("com.a".toList, false)) &&
      (s₁.step (parseOf [Placed.oneEntry]) (fun _ _ => true) Sys.someLayout
        (.foreign 100 ⟨fromRange "7".toList, baseCpuset⟩)).any fun s₂ =>
          (s₂.step (parseOf [Placed.oneEntry]) (fun _ _ => true) Sys.someLayout (.dispatch .allows)).any fun s =>
            decide (s.sys.queue = []) && decide (100 ∈ s.sys.threads) &&
              decide (binding s.sys.cfg s.sys.cfg.topo "com.a".toList (eventName namedA ("com.a".toList, false)) =
                some (fromRange "0-3".toList, false)) &&
              decide ((fromRange "0-3".toList).inter s.sys.cfg.topo.presentCpus = fromRange "0-3".toList) &&
              (s.sys.cache.tasks.lookup 100).all fun e => !e.isThreadRule)
    ((deployedSys "zygote".toList).step (parseOf [Placed.oneEntry]) (fun _ _ => true) Sys.someLayout
      (.kernel (.rename 100 100 namedA.comm)))).mp (by decide +kernel)
  rw [Bool.and_eq_true, Bool.and_eq_true, decide_eq_true_eq, decide_eq_true_eq, Option.any_eq_true] at hp
  obtain ⟨⟨hq, hr⟩, s₂, h₂, hp⟩ := hp
  obtain ⟨s, h, hp⟩ := (Option.any_eq_true _ _).mp hp
  simp only [Bool.and_eq_true, decide_eq_true_eq] at hp
  obtain ⟨⟨⟨⟨hempty, hlive⟩, hbind⟩, hsub⟩, hold⟩ := hp
  refine ⟨s₁, s₂, s, h₁, h₂, h, ?_⟩
  obtain ⟨hqueue₀, hcfg₀, htree₀⟩ := deployedSys_start "zygote".toList
  -- neither the rename nor the other program touches the configuration and the directories
  have hkernel : ∀ (a : KernelAction) (s s' : PlacedSys), s.step (parseOf [Placed.oneEntry]) (fun _ _ => true)
      Sys.someLayout (.kernel a) = some s' → s'.sys.cfg = s.sys.cfg ∧ s'.w.tree = s.w.tree := by
    intro a s s' h
    cases step_case _ _ _ h with
    | kernel hk => exact ⟨(Sys.kernelStep_case hk).daemon_frame.2.1, kernel_tree _ _⟩
  have hfirst := hkernel _ _ _ h₁
  have hsecond : s₂.sys = s₁.sys ∧ s₂.w.tree = s₁.w.tree := by
    cases step_case _ _ _ h₂ with
    | foreign htid => exact ⟨rfl, rfl⟩
  have hforeign : Undisturbed Sys.someLayout namedA ⟨0, 0⟩ ("com.a".toList, false) s₁
      (.foreign 100 ⟨fromRange "7".toList, baseCpuset⟩) := fun _ => by
    rw [hq]
    exact List.mem_cons_self
  have hdispatch : Undisturbed Sys.someLayout namedA ⟨0, 0⟩ ("com.a".toList, false) s₂ (.dispatch .allows) :=
    fun q _ _ => by
      rw [hsecond.1, hsecond.2, hfirst.1, hfirst.2, hcfg₀, htree₀]
      exact ⟨hcfg₀ ▸ hfirst.1 ▸ hr, Placed.deployed_base⟩
  have hqueue : s₁.sys.queue = (deployedSys "zygote".toList).sys.queue ++ [(namedA, ⟨0, 0⟩)] := by
    rw [hqueue₀]
    exact hq
  have hlanded := last_event_enforces (parseOf [Placed.oneEntry]) (fun _ _ => true) Sys.someLayout
    (deployedSys "zygote".toList) s₁ s (.rename 100 100 namedA.comm) namedA ⟨0, 0⟩ ("com.a".toList, false)
    ⟨_, init_deployedSys "zygote".toList, .refl _⟩ rfl h₁ hqueue (.tail (.single hforeign h₂) hdispatch h)
    (fun e he => by rw [hempty] at he; exact absurd he List.not_mem_nil) hlive
  have hstands := (hlanded _ _ hbind).resolve_right ?_
  · exact hstands.placed ⟨fun _ => rfl, inter_eq_left.mp hsub⟩
  rintro ⟨-, e, he, hrule⟩
  have he' : s.sys.cache.tasks.lookup 100 = some e := he
  rw [he', Option.all_some, hrule] at hold
  cases hold

end PlacedSys

end AetherOptExt
