import AetherOptExt.DeadThreads
import AetherOptExt.EventLink

/-! # Kernel and daemon with the ring buffer between them

The system of `AetherOptExt.System` has one queue from the hooks to the daemon.  Here the hooks
write into the ring, the reader thread passes the records on, and the main thread receives from
the channel; the events on their way are the link's, in the ring, in the reader's hands and in
the channel.  An eviction from `APPLIED_MAP`, which is an LRU table, is a step of its own.

As long as the ring has room and nothing is evicted, this system simulates the other one, with
the events on their way as the queue (`piped_simulation`), and every invariant of the other one
can be read here.  The last section is about runs in which records are lost and entries are
evicted: what a completed correction repairs.  A run ends where the daemon drops the link. -/

namespace AetherOptExt

open Sys (someLayout)

/-- The system, whose own queue is not used, and the link. -/
structure Piped where
  core : Sys
  link : Link Stamp

inductive PipedAction where
  | kernel (a : KernelAction) (room : Bool)
  | evict (tid : Tid)
  | reader (a : LinkAction Stamp)
  | dispatch (env : Env)
  | daemon (a : Action)

/-- The reader's steps. -/
def LinkAction.ofReader {τ : Type} : LinkAction τ → Bool
  | setup _ _ _ => true
  | wait _ => true
  | next => true
  | send => true
  | _ => false

/-- The daemon's steps that receive nothing. -/
def Action.ofDaemon : Action → Bool
  | scan _ _ _ => true
  | sync _ => true
  | job => true
  | _ => false

/-- The step of the system with one queue that a step is; the reader's steps are none. -/
def PipedAction.visible : PipedAction → Option Action
  | kernel a _ => some (.kernel a)
  | evict _ => none
  | reader _ => none
  | dispatch env => some (.dispatch env)
  | daemon a => some a

/-- The events of a list are submitted in order. -/
def Link.submitAll {τ : Type} (l : Link τ) (evs : List (ProcEvent × τ)) (room : Bool) : Link τ :=
  evs.foldl (fun l e => l.submit e.1 e.2 room) l

namespace Sys

def withQueue (s : Sys) (q : List (ProcEvent × Stamp)) : Sys := { s with queue := q }

end Sys

namespace Piped

/-- One step. -/
def step (L : Layout) (p : Piped) : PipedAction → Option Piped
  | .kernel a room =>
      ((p.core.withQueue []).kernelStep L a).map fun s => ⟨s.withQueue [], p.link.submitAll s.queue room⟩
  | .evict t => some ⟨{ p.core with applied := p.core.applied.erase t }, p.link⟩
  | .reader a => if a.ofReader then (p.link.step a).map fun l => ⟨p.core, l⟩ else none
  | .dispatch env =>
      match p.link.channel with
      | [] => none
      | (ev, st) :: _ =>
          if p.core.todo.isEmpty then (p.link.step .recv).map fun l => ⟨p.core.handle env ev st, l⟩ else none
  | .daemon a => if a.ofDaemon then (Sys.step L p.core a).map fun s => ⟨s, p.link⟩ else none

/-- Nothing has been reported, and the reader has just been started. -/
structure Init (p : Piped) : Prop where
  core : p.core.Init
  link : p.link = Link.start

/-- The ring has room and no entry is evicted. -/
def Lossless (_ : Piped) : PipedAction → Prop
  | .kernel _ room => room = true
  | .evict _ => False
  | _ => True

instance (p : Piped) : ∀ a, Decidable (Lossless p a)
  | .kernel _ _ => inferInstanceAs (Decidable (_ = _))
  | .evict _ => isFalse id
  | .reader _ => isTrue trivial
  | .dispatch _ => isTrue trivial
  | .daemon _ => isTrue trivial

/-- The system with one queue that a state stands for. -/
def abs (p : Piped) : Sys := p.core.withQueue p.link.pending

end Piped

/-! ### The queue is only appended to and read at its head -/

namespace Sys

theorem kernelStep_withQueue (L : Layout) (s : Sys) (q : List (ProcEvent × Stamp)) (a : KernelAction) :
    (s.withQueue q).kernelStep L a =
      ((s.withQueue []).kernelStep L a).map (fun s' => s'.withQueue (q ++ s'.queue)) := by
  have hfree : ∀ q c, (s.withQueue q).Free c ↔ s.Free c := fun _ _ => Iff.rfl
  have hmaps : ∀ q, (s.withQueue q).maps L = s.maps L := fun _ => rfl
  cases a with
  | clone u c =>
      simp only [kernelStep, hfree, hmaps]
      cases hu : s.threads.lookup u with
      | none => simp [withQueue, hu]
      | some p => by_cases hc : s.Free c <;> simp [withQueue, hu, hc, submit]
  | spawn u c =>
      simp only [kernelStep, hfree, hmaps]
      cases hu : s.threads.lookup u with
      | none => simp [withQueue, hu]
      | some p => by_cases hc : s.Free c <;> simp [withQueue, hu, hc, submit]
  | exec t =>
      have halone : ∀ q, (s.withQueue q).Alone t t ↔ s.Alone t t := fun _ => Iff.rfl
      simp only [kernelStep, hmaps, halone]
      cases ht : s.threads.lookup t with
      | none => simp [withQueue, ht]
      | some x => by_cases hc : x.tgid = t ∧ s.Alone t t <;> simp [withQueue, ht, hc, submit]
  | takeover t g =>
      have halone : ∀ q, (s.withQueue q).Alone t g ↔ s.Alone t g := fun _ => Iff.rfl
      simp only [kernelStep, halone]
      cases ht : s.threads.lookup t with
      | none => simp [withQueue, ht]
      | some x => by_cases hc : x.tgid = g ∧ g ∉ s.threads ∧ s.Alone t g <;> simp [withQueue, ht, hc, takenOver]
  | rename a t comm =>
      simp only [kernelStep, hmaps]
      cases ha : s.threads.lookup a with
      | none => simp [withQueue, ha]
      | some p =>
          cases ht : s.threads.lookup t with
          | none => simp [withQueue, ha, ht]
          | some x => by_cases hg : p.tgid = x.tgid <;> simp [withQueue, ha, ht, hg, submit]
  | exit t =>
      simp only [kernelStep, hmaps]
      cases ht : s.threads.lookup t with
      | none => simp [withQueue, ht]
      | some x => simp [withQueue, ht, submit]

theorem runJob_withQueue (s : Sys) (q : List (ProcEvent × Stamp)) (j : Job) :
    (s.withQueue q).runJob j = (s.runJob j).withQueue q := by
  cases j with
  | look r =>
      have hproc : (s.withQueue q).procOf = s.procOf := rfl
      have hcfg : (s.withQueue q).cfg = s.cfg := rfl
      simp only [runJob, lookAt, hproc, hcfg]
      cases r.pid.bind s.procOf <;> cases scanTarget s.cfg r <;> rfl
  | probe t env =>
      have hlive : (s.withQueue q).live = s.live := rfl
      have hcache : (s.withQueue q).cache = s.cache := rfl
      have hcfg : (s.withQueue q).cfg = s.cfg := rfl
      simp only [runJob, probe, hlive, hcache, hcfg]
      cases s.cache.tasks.lookup t with
      | none => rfl
      | some e => by_cases hd : affinitySet (env.over s.live) t e.cpus e.cpusetDir s.cfg.topo <;> simp [withQueue, hd]
  | del t => rfl
  | bind pid pkg htr k x => rfl
  | record pid pkg htr k => rfl
  | reap => rfl

theorem step_withQueue (L : Layout) (s : Sys) (q : List (ProcEvent × Stamp)) {a : Action} (ha : a.ofDaemon = true) :
    Sys.step L (s.withQueue q) a = (Sys.step L s a).map (fun s' => s'.withQueue q) := by
  cases a with
  | kernel a => cases ha
  | dispatch env => cases ha
  | scan cfg target dir =>
      by_cases ht : s.todo.isEmpty = true <;> simp [Sys.step, withQueue, ht]
  | sync env =>
      by_cases ht : s.todo.isEmpty = true <;> simp [Sys.step, withQueue, ht]
  | job =>
      cases ht : s.todo with
      | nil => simp [Sys.step, withQueue, ht]
      | cons j rest =>
          have hj := runJob_withQueue { s with todo := rest } q j
          simpa [Sys.step, withQueue, ht] using hj

end Sys

namespace Link

variable {τ : Type}

theorem pending_submit (l : Link τ) (ev : ProcEvent) (tag : τ) :
    (l.submit ev tag true).pending = l.pending ++ [(ev, tag)] := by
  have hr := records_submit l ev tag true
  simp only [pending, hr, if_true]
  simp [submit]

theorem pending_submitAll (l : Link τ) (evs : List (ProcEvent × τ)) :
    (l.submitAll evs true).pending = l.pending ++ evs := by
  induction evs generalizing l with
  | nil => simp [submitAll]
  | cons e evs ih =>
      have hstep : l.submitAll (e :: evs) true = (l.submit e.1 e.2 true).submitAll evs true := rfl
      rw [hstep, ih, pending_submit]
      simp

theorem ctx_submitAll (l : Link τ) (evs : List (ProcEvent × τ)) (room : Bool) :
    (l.submitAll evs room).ctx = l.ctx := by
  induction evs generalizing l with
  | nil => rfl
  | cons e evs ih => exact (ih (l.submit e.1 e.2 room)).trans rfl

/-- The reader moves events and loses none while the receiver is there. -/
theorem reader_step {l l' : Link τ} {a : LinkAction τ} (ha : a.ofReader = true) (hc : l.ctx = .active)
    (hs : step l a = some l') : l'.ctx = .active ∧ l'.pending = l.pending := by
  cases step_case hs with
  | setup hr =>
      rcases setup_case l _ _ _ with ho | ho | ho
      all_goals
        rw [ho]
        exact ⟨hc, by simp [pending, records, exitLoop, hr, Reader.held]⟩
  | interrupted hr => exact ⟨hc, rfl⟩
  | leave hr => exact ⟨hc, by simp [pending, records, exitLoop, hr, Reader.held]⟩
  | readable hr hw => exact ⟨hc, by simp [pending, records, hr, Reader.held]⟩
  | next hr =>
      refine ⟨?_, pending_next hr⟩
      obtain ⟨-, ho⟩ | ⟨_, _, _, _, -, -, ho⟩ | ⟨_, _, _, -, -, ho⟩ := next_case l
      all_goals
        rw [ho]
        exact hc
  | send hr =>
      have hd : l.ctx ≠ .dropped := by simp [hc]
      simp only [send, if_neg hd]
      exact ⟨hc, by simp [pending, records, hr, Reader.held]⟩
  | submit | recv | disconnected | unwind | join => cases ha

/-- What is received is the oldest event on its way. -/
theorem recv_step {l l' : Link τ} (hs : step l .recv = some l') :
    ∃ item channel, l.channel = item :: channel ∧ l'.ctx = .active ∧ l.pending = item :: l'.pending := by
  cases step_case hs with
  | @recv item channel hc hq => exact ⟨item, channel, hq, hc, by simp [pending, records, hq]⟩

end Link

/-! ### The simulation -/

namespace Piped

/-- A state of the link in use stands for the system with the events on their way as its queue. -/
def Refines (p : Piped) (s : Sys) : Prop := s = p.abs ∧ p.link.ctx = .active

/-- A step of the kernel or of the main thread is the same step of the system with one queue, and a
step of the reader thread is none. -/
theorem step_visible (L : Layout) :
    Runs.LabelledSimulation (step L) Lossless (Sys.step L) Refines PipedAction.visible := by
  rintro p s a p' ⟨rfl, hc⟩ hok hs
  -- a visible step has one label
  have hone : ∀ (b : Action) (s₁ : Sys), Sys.step L p.abs b = some s₁ → Refines p' s₁ → a.visible = some b →
      (∀ b', a.visible = some b' → ∃ t₁, Sys.step L p.abs b' = some t₁ ∧ Refines p' t₁) ∧
        (a.visible = none → Refines p' p.abs) := by
    intro b s₁ hb hR hv
    refine ⟨fun b' hb' => ?_, fun hn => ?_⟩
    · obtain rfl := Option.some.inj (hv.symm.trans hb')
      exact ⟨s₁, hb, hR⟩
    · rw [hv] at hn
      cases hn
  cases a with
  | kernel a room =>
      obtain rfl : room = true := hok
      obtain ⟨s', hk, rfl⟩ := Option.map_eq_some_iff.mp hs
      refine hone (.kernel a) (s'.withQueue (p.link.pending ++ s'.queue)) ?_ ⟨?_, ?_⟩ rfl
      · show (p.core.withQueue p.link.pending).kernelStep L a = _
        rw [Sys.kernelStep_withQueue, hk]
        rfl
      · simp only [abs, Link.pending_submitAll]
        rfl
      · rw [Link.ctx_submitAll]
        exact hc
  | evict t => exact hok.elim
  | reader a =>
      simp only [step] at hs
      split_ifs at hs with ha
      obtain ⟨l, hl, rfl⟩ := Option.map_eq_some_iff.mp hs
      obtain ⟨hc', hp⟩ := Link.reader_step ha hc hl
      refine ⟨fun b hb => ?_, fun _ => ⟨by simp only [abs, hp], hc'⟩⟩
      cases hb
  | dispatch env =>
      simp only [step] at hs
      cases hq : p.link.channel with
      | nil => simp [hq] at hs
      | cons e channel =>
          obtain ⟨ev, st⟩ := e
          simp only [hq] at hs
          split_ifs at hs with ht
          obtain ⟨l, hl, rfl⟩ := Option.map_eq_some_iff.mp hs
          obtain ⟨item, channel', hq', hc', hp⟩ := Link.recv_step hl
          obtain ⟨rfl, rfl⟩ := List.cons.inj (hq.symm.trans hq')
          refine hone (.dispatch env) ((p.core.handle env ev st).withQueue l.pending) ?_ ⟨rfl, hc'⟩ rfl
          simp only [abs, Sys.withQueue, Sys.step, hp, ht, if_true]
          rfl
  | daemon a =>
      simp only [step] at hs
      split_ifs at hs with ha
      obtain ⟨s', hs', rfl⟩ := Option.map_eq_some_iff.mp hs
      refine hone a (s'.withQueue p.link.pending) ?_ ⟨rfl, hc⟩ rfl
      rw [abs, Sys.step_withQueue L p.core p.link.pending ha, hs']
      rfl

theorem refines_init (p : Piped) (h : p.Init) : ∃ s, s.Init ∧ p.Refines s := by
  have hpending : p.link.pending = [] := by rw [h.link]; rfl
  have hctx : p.link.ctx = .active := by rw [h.link]; rfl
  have hempty : ∀ e ∈ p.abs.queue, e.2.proc < p.abs.clock ∧ e.2.born < p.abs.clock := by
    intro e he
    change e ∈ p.link.pending at he
    rw [hpending] at he
    cases he
  exact ⟨p.abs, ⟨⟨h.core.wf.group, h.core.wf.past, hempty⟩, h.core.applied, hpending, h.core.cache, h.core.todo,
    h.core.dead⟩, rfl, hctx⟩

/-- **The pipeline refines the queue**: it starts where the system with one queue starts, and while the
ring has room and no entry is evicted, a step of the kernel or of the main thread is the same step of
that system, and a step of the reader thread is none. -/
theorem piped_simulation (L : Layout) :
    Runs.LabelledSimulation (step L) Lossless (Sys.step L) Refines PipedAction.visible ∧
      ∀ p : Piped, p.Init → ∃ s, s.Init ∧ p.Refines s :=
  ⟨step_visible L, refines_init⟩

/-- `oneProcess`, with the link just started. -/
def pipedProcess (name : Str) : Piped := ⟨Sys.oneProcess name, Link.start⟩

theorem pipedProcess_init (name : Str) : (pipedProcess name).Init := ⟨Sys.oneProcess_init name, rfl⟩

/-- A rename is the same step above, and the reader that then gets ready is none. -/
theorem piped_simulation_renamed :
    ∃ p p' s s', step someLayout (pipedProcess "zygote".toList)
        (.kernel (.rename 100 100 (Comm.ofText "com.a".toList)) true) = some p ∧
      step someLayout p (.reader (.setup true true true)) = some p' ∧ s.Init ∧
      Refines (pipedProcess "zygote".toList) s ∧
      Sys.step someLayout s (.kernel (.rename 100 100 (Comm.ofText "com.a".toList))) = some s' ∧ Refines p' s' := by
  obtain ⟨p, hp, hn⟩ := (Option.any_eq_true (fun p => (step someLayout p (.reader (.setup true true true))).isSome)
    (step someLayout (pipedProcess "zygote".toList)
      (.kernel (.rename 100 100 (Comm.ofText "com.a".toList)) true))).mp (by decide +kernel)
  obtain ⟨p', hp'⟩ := Option.isSome_iff_exists.mp hn
  obtain ⟨hsim, hinit⟩ := piped_simulation someLayout
  obtain ⟨s, hs, hR⟩ := hinit _ (pipedProcess_init "zygote".toList)
  obtain ⟨s', hs', hR'⟩ := (hsim _ s (.kernel (.rename 100 100 (Comm.ofText "com.a".toList)) true) p hR rfl hp).1
    (.kernel (.rename 100 100 (Comm.ofText "com.a".toList))) rfl
  exact ⟨p, p', s, s', hp, hp', hs, hR, hs', (hsim p s' (.reader (.setup true true true)) p' hR' trivial hp').2 rfl⟩

/-- No thread in `APPLIED_MAP` takes over another id. -/
def IdsKept (p : Piped) (a : PipedAction) : Prop := ∀ b ∈ a.visible, p.abs.IdsKept b

instance (p : Piped) (a : PipedAction) : Decidable (p.IdsKept a) :=
  inferInstanceAs (Decidable (∀ b ∈ a.visible, p.abs.IdsKept b))

/-- An EXIT event of the thread is on its way. -/
def ExitPending (p : Piped) (t : Tid) : Prop := ∃ e ∈ p.link.pending, e.1.tid = t ∧ e.1.eventType = eventExit

/-- **No exited thread stays in the cache**, with the events in the ring, in the reader's hands and
in the channel, while no record is lost, no entry evicted and no id in `APPLIED_MAP` given up by a
takeover: a bound thread is in `APPLIED_MAP` or its EXIT event is on its way, and when nothing is on
its way, every bound thread is live. -/
theorem piped_no_dead_thread (L : Layout) (p : Piped)
    (h : Runs.Reachable (step L) (fun p a => Lossless p a ∧ p.IdsKept a) Init p) :
    (∀ t ∈ p.core.cache.tasks, t ∈ p.core.applied ∨ p.ExitPending t) ∧
      (∀ t ∈ p.core.applied, t ∈ p.core.threads) ∧
      (p.link.pending = [] → ∀ t ∈ p.core.cache.tasks, t ∈ p.core.threads) := by
  have hsim : Runs.Simulation (step L) (fun p a => Lossless p a ∧ p.IdsKept a) (Sys.step L) Sys.IdsKept Refines := by
    refine (step_visible L).mono (fun _ _ => And.left) |>.simulation ?_
    rintro p s a b ⟨rfl, -⟩ hok hb
    exact hok.2 b hb
  have hI : p.abs.NoneDead := by
    refine hsim.transfer refines_init (P := Sys.NoneDead) (Q := fun p => p.abs.NoneDead) (fun s hs => ?_) ?_ h
    · exact (Sys.covered_of_reachable hs).noneDead (Sys.appliedLive_of_reachable hs)
    · rintro p s ⟨rfl, -⟩ hI
      exact hI
  exact ⟨hI.1, hI.2.1, hI.2.2⟩

/-- The main thread takes the name of a package, and the event passes through the link. -/
def renameAndBind : List PipedAction :=
  [.kernel (.rename 100 100 (Comm.ofText "com.a".toList)) true, .reader (.setup true true true),
    .reader (.wait (.ready true)), .reader .next, .reader .send, .dispatch allAlive]

theorem piped_no_dead_thread_bound :
    ∃ p, Runs.Steps (step someLayout) (fun p a => Lossless p a ∧ p.IdsKept a) (pipedProcess "zygote".toList) p ∧
      100 ∈ p.core.cache.tasks ∧
      (∀ t ∈ p.core.cache.tasks, t ∈ p.core.applied ∨ p.ExitPending t) ∧
      (∀ t ∈ p.core.applied, t ∈ p.core.threads) ∧
      (p.link.pending = [] → ∀ t ∈ p.core.cache.tasks, t ∈ p.core.threads) := by
  obtain ⟨p, hs, hb⟩ := Runs.exists_checkedRun (step someLayout) (fun p a => Lossless p a ∧ p.IdsKept a)
    (pipedProcess "zygote".toList) renameAndBind
    (fun p => decide (100 ∈ p.core.cache.tasks)) (by decide +kernel)
  exact ⟨p, hs, of_decide_eq_true hb, piped_no_dead_thread someLayout p ⟨_, pipedProcess_init _, hs⟩⟩

end Piped

/-! ### What a correction repairs -/

namespace Sys

/-- The correction under way is going to unbind the thread if it is not live. -/
def Doomed (t : Tid) (s : Sys) : Prop :=
  ∃ front back, s.todo = front ++ Job.reap :: back ∧ (t ∈ s.dead ∨ ∃ env, Job.probe t env ∈ front)

/-- The thread is not bound, or is going to be unbound. -/
def Leaving (t : Tid) (s : Sys) : Prop := t ∉ s.cache.tasks ∨ s.Doomed t

/-- Between two pieces of work nothing is promised. -/
theorem Leaving.idle {t : Tid} {s : Sys} (h : s.Leaving t) (ht : s.todo = []) : t ∉ s.cache.tasks := by
  refine h.resolve_right ?_
  rintro ⟨front, back, htodo, -⟩
  rw [ht] at htodo
  exact List.append_ne_nil_of_right_ne_nil front (List.cons_ne_nil _ _) htodo.symm

theorem Doomed.more {t : Tid} {s s' : Sys} (h : s.Doomed t) (more : List Job) (ht : s'.todo = s.todo ++ more)
    (hd : ∀ u ∈ s.dead, u ∈ s'.dead) : s'.Doomed t := by
  obtain ⟨front, back, htodo, hwill⟩ := h
  exact ⟨front, back ++ more, by rw [ht, htodo]; simp, hwill.imp_left (hd t)⟩

/-- A thread that is not live is not bound. -/
theorem notMem_apply {env : Env} {live : Tid → Bool} {pc : ProcCache} {tid pid : Tid} {pkg name : Str}
    {cfg : AppConfig} {applied : AppliedMap} {out : Bool × ProcCache × AppliedMap}
    (h : ProcCache.ApplyCase (env.over live).createDir pc tid pid pkg name cfg
      (eventAffinityApply (env.over live) cfg.topo) applied out) {t : Tid} (hl : live t = false) (ht : t ∉ pc.tasks) :
    t ∉ out.2.1.tasks := by
  intro hm
  rcases applyCase_over h with ⟨-, ho⟩ | ⟨-, ⟨-, ho⟩ | ⟨r, w, hlive, ho⟩⟩
  all_goals rw [ho] at hm
  · exact ht hm
  · exact ht (AList.mem_erase.mp hm).2
  · rcases KeyMap.mem_insert.mp hm with rfl | hm
    · rw [hl] at hlive
      cases hlive
    · exact ht (AList.mem_erase.mp hm).2

theorem notMem_dispatch {env : Env} {live : Tid → Bool} {ev : ProcEvent} {cfg : AppConfig} {pc : ProcCache}
    {applied : AppliedMap} {out : ProcCache × AppliedMap} (h : DispatchCase (env.over live) ev cfg pc applied out)
    {t : Tid} (hl : live t = false) (ht : t ∉ pc.tasks) : t ∉ out.1.tasks := by
  cases h with
  | exit he =>
      intro hm
      have hm := (ProcCache.mem_taskDel.mp hm).2
      split_ifs at hm
      · exact ht hm
      · exact ht hm
  | dropped he hr => exact fun hm => ht (mem_taskDel_drop.mp hm).2
  | unresolved he hr => exact ht
  | applied hb hr htasks hp hc => exact notMem_apply hc hl (by rw [htasks]; exact ht)
  | ignored he hb => exact ht

theorem notMem_handle {s : Sys} {t : Tid} (hl : s.live t = false) (ht : t ∉ s.cache.tasks) (env : Env)
    (ev : ProcEvent) (st : Stamp) : t ∉ (s.handle env ev st).cache.tasks :=
  notMem_dispatch (eventDispatch_case (env.over s.live) ev s.cfg s.cache s.applied) hl ht

theorem notMem_runJob {s : Sys} {t : Tid} (hl : s.live t = false) (ht : t ∉ s.cache.tasks) (j : Job) :
    t ∉ (s.runJob j).cache.tasks := by
  cases j with
  | del u => exact ht
  | look r =>
      show t ∉ (s.lookAt r).cache.tasks
      rcases lookAt_case s r with he | ⟨_, _, -, -, he⟩
      all_goals
        rw [he]
        exact ht
  | bind pid pkg htr k x =>
      exact notMem_apply (ProcCache.taskApply_case (x.env.over s.live).createDir s.cache x.tid pid pkg
        (scanName htr x.comm) htr s.cfg true (eventAffinityApply (x.env.over s.live) s.cfg.topo) s.applied) hl ht
  | record pid pkg htr k => exact ht
  | probe u env =>
      show t ∉ (s.probe u env).cache.tasks
      rcases probe_case s u env with he | he
      all_goals
        rw [he]
        exact ht
  | reap => exact fun hm => ht (ProcCache.mem_foldl_taskDel.mp hm).1

/-- A bound thread that is not live is found. -/
theorem probe_of_not_live {s : Sys} {t : Tid} (env : Env) (hb : t ∈ s.cache.tasks) (hl : s.live t = false) :
    s.probe t env = { s with dead := s.dead ++ [t] } := by
  obtain ⟨e, he⟩ := Option.isSome_iff_exists.mp (AList.lookup_isSome.mpr hb)
  have hdead : affinitySet (env.over s.live) t e.cpus e.cpusetDir s.cfg.topo = true := by simp [hl]
  unfold probe
  rw [he]
  exact if_pos hdead

/-- A job of a correction keeps the promise or fulfils it. -/
theorem Doomed.job {s : Sys} {t : Tid} (h : s.Doomed t) (hl : s.live t = false) {j : Job} {rest : List Job}
    (ht : s.todo = j :: rest) : ({ s with todo := rest }.runJob j).Leaving t := by
  obtain ⟨front, back, htodo, hwill⟩ := h
  rw [ht] at htodo
  cases front with
  | nil =>
      obtain ⟨rfl, rfl⟩ := List.cons.inj htodo
      have hdead : t ∈ s.dead := by simpa using hwill
      exact Or.inl fun hm => (ProcCache.mem_foldl_taskDel.mp hm).2 hdead
  | cons i front =>
      obtain ⟨hi, hrest⟩ := List.cons.inj htodo
      subst hi
      -- a job that does not ask about the thread
      have hother : (∀ env, j ≠ .probe t env) → Doomed t { s with todo := rest } := by
        intro hj
        refine ⟨front, back, hrest, hwill.imp_right ?_⟩
        rintro ⟨env, hm⟩
        exact ⟨env, (List.mem_cons.mp hm).resolve_left fun he => hj env he.symm⟩
      cases j with
      | del u => exact Or.inr (hother fun _ he => by cases he)
      | look r =>
          have hd := hother fun _ he => by cases he
          show Leaving t (lookAt _ r)
          rcases lookAt_case { s with todo := rest } r with he | ⟨_, _, -, -, he⟩
          · rw [he]
            exact Or.inr hd
          · rw [he]
            exact Or.inr (hd.more _ rfl fun _ hu => hu)
      | bind pid pkg htr k x =>
          have hd := hother fun _ he => by cases he
          exact Or.inr (hd.more [] (by simp [runJob]) fun _ hu => hu)
      | record pid pkg htr k => exact Or.inr (hother fun _ he => by cases he)
      | probe u env =>
          show Leaving t (probe _ u env)
          by_cases hu : u = t
          · subst hu
            by_cases hb : u ∈ s.cache.tasks
            · rw [probe_of_not_live (s := { s with todo := rest }) env hb hl]
              exact Or.inr ⟨front, back, hrest, Or.inl (List.mem_append_right _ (List.mem_singleton.mpr rfl))⟩
            · exact Or.inl (notMem_runJob (s := { s with todo := rest }) hl hb (.probe u env))
          · have hd := hother fun _ he => hu (Job.probe.inj he).1
            rcases probe_case { s with todo := rest } u env with he | he
            · rw [he]
              exact Or.inr hd
            · rw [he]
              exact Or.inr (hd.more [] (by simp) fun _ hm => List.mem_append_left _ hm)
      | reap =>
          by_cases hdead : t ∈ s.dead
          · exact Or.inl fun hm => (ProcCache.mem_foldl_taskDel.mp hm).2 hdead
          · obtain ⟨env, hm⟩ := hwill.resolve_left hdead
            have hm : Job.probe t env ∈ front := by simpa using hm
            exact Or.inr ⟨s.dead.map Job.del ++ front, back, by simp [runJob, hrest],
              Or.inr ⟨env, List.mem_append_right _ hm⟩⟩

/-- While a thread is not live, nothing the kernel or the daemon does binds it. -/
theorem Leaving.step {L : Layout} {s s' : Sys} {a : Action} {t : Tid} (h : s.Leaving t) (hl : s.live t = false)
    (hs : Sys.step L s a = some s') : s'.Leaving t := by
  cases step_case hs with
  | kernel hk => cases hk <;> exact h
  | @dispatch env ev st q ht hq => exact Or.inl (notMem_handle (s := { s with queue := q }) hl (h.idle ht) env ev st)
  | scan ht => exact Or.inl (AList.notMem_empty t)
  | sync ht => exact Or.inl (h.idle ht)
  | @job j rest ht =>
      rcases h with hn | hd
      · exact Or.inl (notMem_runJob (s := { s with todo := rest }) hl hn j)
      · exact hd.job hl ht

/-- A correction that begins is going to unbind every thread that is not live. -/
theorem leaving_sync {L : Layout} {s s' : Sys} {env : Tid → Env} (hs : Sys.step L s (.sync env) = some s') (t : Tid) :
    s'.Leaving t := by
  cases step_case hs with
  | sync ht =>
      by_cases hb : t ∈ s.cache.tasks
      · exact Or.inr ⟨_, [], rfl, Or.inr ⟨env t, List.mem_map.mpr ⟨t, AList.mem_keys.mp hb, rfl⟩⟩⟩
      · exact Or.inl hb

end Sys

namespace Piped

/-- The thread is not live. -/
def NotLive (t : Tid) (p : Piped) (_ : PipedAction) : Prop := t ∉ p.core.threads

theorem leaving_step {L : Layout} {p p' : Piped} {a : PipedAction} {t : Tid} (h : p.core.Leaving t)
    (hl : NotLive t p a) (hs : step L p a = some p') : p'.core.Leaving t := by
  have hlive : p.core.live t = false := by
    rw [Bool.eq_false_iff]
    exact fun ht => hl (Sys.live_iff.mp ht)
  cases a with
  | kernel a room =>
      obtain ⟨s', hk, rfl⟩ := Option.map_eq_some_iff.mp hs
      have h' : s'.Leaving t := Sys.Leaving.step (L := L) (a := .kernel a) (s := p.core.withQueue []) h hlive hk
      exact h'
  | evict u =>
      obtain rfl := Option.some.inj hs
      exact h
  | reader a =>
      simp only [step] at hs
      split_ifs at hs
      obtain ⟨l, -, rfl⟩ := Option.map_eq_some_iff.mp hs
      exact h
  | dispatch env =>
      simp only [step] at hs
      cases hq : p.link.channel with
      | nil => simp [hq] at hs
      | cons e channel =>
          simp only [hq] at hs
          split_ifs at hs with ht
          obtain ⟨l, -, rfl⟩ := Option.map_eq_some_iff.mp hs
          exact Or.inl (Sys.notMem_handle hlive (h.idle (List.isEmpty_iff.mp ht)) env _ _)
  | daemon a =>
      simp only [step] at hs
      split_ifs at hs
      obtain ⟨s', hs', rfl⟩ := Option.map_eq_some_iff.mp hs
      exact h.step hlive hs'

/-- **A completed correction repairs what was lost.**  Whatever records the ring has dropped and
whatever entries of `APPLIED_MAP` have been evicted, from any state: a thread that has exited
when a correction begins is not bound once the correction is done, and it is not bound again, by
an old event or by a scan, until its id is given to a thread again. -/
theorem dead_thread_reaped (L : Layout) (p p₁ p₂ : Piped) (t : Tid) (env : Tid → Env)
    (hs : step L p (.daemon (.sync env)) = some p₁) (hr : Runs.Steps (step L) (NotLive t) p₁ p₂)
    (ht : p₂.core.todo = []) : t ∉ p₂.core.cache.tasks := by
  have h₁ : p₁.core.Leaving t := by
    obtain ⟨s', hs', rfl⟩ := Option.map_eq_some_iff.mp hs
    exact Sys.leaving_sync hs' t
  exact (hr.invariant (fun _ _ _ hI hl hs => leaving_step hI hl hs) h₁).idle ht

instance (t : Tid) (p : Piped) (a : PipedAction) : Decidable (NotLive t p a) := inferInstanceAs (Decidable (_ ∉ _))

/-- The bound thread exits, and its EXIT event finds no room in the ring. -/
theorem dead_thread_reaped_lost_exit :
    ∃ p p₁ p₂, Runs.run (step someLayout) (pipedProcess "zygote".toList)
        (renameAndBind ++ [.kernel (.exit 100) false]) = some p ∧ 100 ∈ p.core.cache.tasks ∧
      step someLayout p (.daemon (.sync fun _ => allAlive)) = some p₁ ∧
      Runs.Steps (step someLayout) (NotLive 100) p₁ p₂ ∧ p₂.core.todo = [] ∧ 100 ∉ p₂.core.cache.tasks := by
  obtain ⟨p, hp, hb⟩ := Runs.exists_run (step someLayout) (pipedProcess "zygote".toList)
    (renameAndBind ++ [.kernel (.exit 100) false])
    (fun p => decide (100 ∈ p.core.cache.tasks) && ((step someLayout p (.daemon (.sync fun _ => allAlive))).any
      fun p₁ => (Runs.checkedRun (step someLayout) (NotLive 100) p₁ [.daemon .job, .daemon .job, .daemon .job]).any
        fun p₂ => p₂.core.todo.isEmpty)) (by decide +kernel)
  obtain ⟨hb, hrest⟩ := Bool.and_eq_true_iff.mp hb
  obtain ⟨p₁, hs, hrest⟩ := (Option.any_eq_true _ _).mp hrest
  obtain ⟨p₂, hr, ht⟩ := Runs.exists_checkedRun _ _ _ _ _ hrest
  have ht : p₂.core.todo = [] := List.isEmpty_iff.mp ht
  exact ⟨p, p₁, p₂, hp, of_decide_eq_true hb, hs, hr, ht, dead_thread_reaped someLayout p p₁ p₂ 100 _ hs hr ht⟩

end Piped

end AetherOptExt
