import AetherOptExt.CacheAgreement
import AetherOptExt.Incarnation
import AetherOptExt.ScanPlan

/-! # Whose package an event uses

A process id can be given to a new process while the old one's package is still mapped.  Each
mapping is stamped with the process it was resolved from (`Sys.prov`); the question is whether
an event is always handled under a package of its own process.

It is not, since a process may be mapped without a bound thread, a thread of another process may be
bound under it, and the id of a bound thread may end without an EXIT event, when the thread takes over
that of its group.  `PackageOk` excludes the steps that do so.  Along the other runs every
mapped process has a bound thread, and every bound thread answers for one process under its id
(`Owner`): it is live in that process, or its EXIT event waits, and then every waiting event of
the id that can bind is of that process or a later one. -/

namespace AetherOptExt

open ProcCache

namespace Sys

/-! ### The condition -/

/-- The condition on an event that is handled under the package `p`: when its thread is bound
anew, it is not the last bound thread of another mapped process, and it has exited while its own
process keeps a bound thread, or it is live in the process the event was submitted for; else the
process has a bound thread already. -/
def EventSound (s : Sys) (env : Env) (ev : ProcEvent) (st : Stamp) (p : Str × Bool) : Prop :=
  (Rebinds env.createDir s.cache s.cfg ev.tid p.1 (eventName ev p) →
    (∀ q ∈ s.cache.pkgs, q ≠ ev.pid → s.cache.BoundTo ev.tid q → s.cache.OtherTask ev.tid q) ∧
    (s.live ev.tid = false → s.cache.OtherTask ev.tid ev.pid) ∧
    ∀ x, s.threads.lookup ev.tid = some x → x.tgid = ev.pid ∧ x.proc = st.proc) ∧
  (¬ Rebinds env.createDir s.cache s.cfg ev.tid p.1 (eventName ev p) → s.cache.HasTask ev.pid)

/-- The condition on a job of a scan: a thread that is bound is not the last one of another
mapped process, it still belongs to the process that was read, and no event waits of an earlier
process with its id; and a process is recorded when one of its threads is bound. -/
def JobSound (s : Sys) : Job → Prop
  | .bind pid pkg htr k x =>
      Rebinds x.env.createDir s.cache s.cfg x.tid pkg (threadName htr true (scanName htr x.comm)) →
        (∀ q ∈ s.cache.pkgs, s.cache.BoundTo x.tid q →
          s.cache.OtherTask x.tid q ∨ (q = pid ∧ s.live x.tid = true)) ∧
        ∀ y, s.threads.lookup x.tid = some y → y.tgid = pid ∧ y.proc = k ∧
          ∀ e ∈ s.queue, e.1.pid = pid → Binds e.1 → k ≤ e.2.proc
  | .record pid _ _ _ => s.cache.HasTask pid
  | _ => True

/-- The steps that keep every package with its process. -/
def PackageOk (s : Sys) : Action → Prop
  | .kernel (.takeover t _) => t ∈ s.cache.tasks → t ∉ s.applied
  | .dispatch env => ∀ ev st q p, s.queue = (ev, st) :: q → Binds ev → resolved s.cache s.cfg ev = some p →
      s.EventSound env ev st p
  | .scan _ _ dir => DistinctPids dir
  | .job => ∀ j rest, s.todo = j :: rest → s.JobSound j
  | _ => True

/-! ### What a binding changes -/

section

variable {env : Env} {live : Tid → Bool} {pc : ProcCache} {tid pid : Tid} {pkg name : Str} {cfg : AppConfig}
  {applied : AppliedMap} {out : Bool × ProcCache × AppliedMap}

/-- A thread that is bound afterwards was bound, or is live and has just been. -/
theorem apply_boundTo (h : ApplyCase (env.over live).createDir pc tid pid pkg name cfg
      (eventAffinityApply (env.over live) cfg.topo) applied out) {v q : Tid} (hb : out.2.1.BoundTo v q) :
    pc.BoundTo v q ∨
      (v = tid ∧ q = pid ∧ live tid = true ∧ tid ∈ out.2.2 ∧ Rebinds env.createDir pc cfg tid pkg name) := by
  rcases applyCase_over h with ⟨-, ho⟩ | ⟨hr, ⟨-, ho⟩ | ⟨r, w, hl, ho⟩⟩
  · rw [ho] at hb
    exact Or.inl hb
  · obtain ⟨e, he, hq⟩ := hb
    rw [ho, KeyMap.lookup_erase] at he
    split_ifs at he
    exact Or.inl ⟨e, he, hq⟩
  · obtain ⟨e, he, rfl⟩ := hb
    rw [ho, KeyMap.lookup_insert] at he
    split_ifs at he with hv
    · obtain rfl := Option.some.inj he
      refine Or.inr ⟨hv, rfl, hl, ?_, hr⟩
      rw [ho]
      exact mem_appliedSet.mpr (Or.inl rfl)
    · rw [KeyMap.lookup_erase, if_neg hv] at he
      exact Or.inl ⟨e, he, rfl⟩

/-- A live thread that is bound anew is bound to the process. -/
theorem apply_bound (h : ApplyCase (env.over live).createDir pc tid pid pkg name cfg
      (eventAffinityApply (env.over live) cfg.topo) applied out) (hr : Rebinds env.createDir pc cfg tid pkg name)
    (hl : live tid = true) : out.2.1.BoundTo tid pid := by
  rcases applyCase_over h with ⟨hn, -⟩ | ⟨-, ⟨hd, -⟩ | ⟨r, w, -, ho⟩⟩
  · exact absurd hr hn
  · rw [hl] at hd
    cases hd
  · rw [ho]
    exact ⟨entryOf pid r, AList.lookup_insert _, rfl⟩

/-- The other threads stay bound. -/
theorem apply_other (h : ApplyCase (env.over live).createDir pc tid pid pkg name cfg
      (eventAffinityApply (env.over live) cfg.topo) applied out) {q : Tid} (ho : pc.OtherTask tid q) :
    out.2.1.HasTask q := by
  obtain ⟨u, hu, e, he, hq⟩ := ho
  exact ⟨u, e, (taskApply_lookup_ne h hu).trans he, hq⟩

/-- A process keeps a bound thread, unless its last one is bound anew elsewhere. -/
theorem apply_hasTask (h : ApplyCase (env.over live).createDir pc tid pid pkg name cfg
      (eventAffinityApply (env.over live) cfg.topo) applied out) {q : Tid} (hq : pc.HasTask q)
    (hlast : Rebinds env.createDir pc cfg tid pkg name → pc.BoundTo tid q →
      pc.OtherTask tid q ∨ (q = pid ∧ live tid = true)) : out.2.1.HasTask q := by
  rcases (hasTask_iff_other tid q).mp hq with ho | hb
  · exact apply_other h ho
  · by_cases hr : Rebinds env.createDir pc cfg tid pkg name
    · rcases hlast hr hb with ho | ⟨rfl, hl⟩
      · exact apply_other h ho
      · exact ⟨tid, apply_bound h hr hl⟩
    · rcases applyCase_over h with ⟨-, ho⟩ | ⟨hr', -⟩
      · rw [ho]
        exact hq
      · exact absurd hr' hr

theorem apply_applied (h : ApplyCase (env.over live).createDir pc tid pid pkg name cfg
      (eventAffinityApply (env.over live) cfg.topo) applied out) {t : Tid} (ht : t ∈ applied) : t ∈ out.2.2 := by
  rcases applyCase_over h with ⟨-, ho⟩ | ⟨-, ⟨-, ho⟩ | ⟨r, w, -, ho⟩⟩
  · rw [ho]
    exact ht
  · rw [ho]
    exact ht
  · rw [ho]
    exact mem_appliedSet.mpr (Or.inr ht)

end

/-! ### The owners of a process -/

/-- The thread `v` answers for the process `k` under `pid`: it is live in it and in
`APPLIED_MAP`, or its EXIT event for that process waits. -/
def Owns (s : Sys) (v pid : Tid) (k : ℕ) : Prop :=
  (∃ x, s.threads.lookup v = some x ∧ x.tgid = pid ∧ x.proc = k ∧ v ∈ s.applied) ∨
    ∃ e ∈ s.queue, e.1.tid = v ∧ e.1.eventType = eventExit ∧ e.1.pid = pid ∧ e.2.proc = k

/-- The process that a bound thread answers for is the one that its package and the pending jobs
are of, and no waiting event that can bind is of an earlier one. -/
structure Owner (s : Sys) (v pid : Tid) (k : ℕ) : Prop where
  owns : s.Owns v pid k
  events : ∀ e ∈ s.queue, e.1.pid = pid → Binds e.1 → k ≤ e.2.proc
  package : pid ∈ s.cache.pkgs → s.prov pid = k
  jobs : ∀ j ∈ s.todo, ∀ l, j.target = some (pid, l) → l = k

/-- Every mapped process has a bound thread, and every bound thread answers for a process. -/
structure Owned (s : Sys) : Prop where
  backed : ∀ pid ∈ s.cache.pkgs, s.cache.HasTask pid
  owner : ∀ v pid, s.cache.BoundTo v pid → ∃ k, s.Owner v pid k

/-- A bound thread goes on answering for its process after a kernel action. -/
theorem Owns.kernel {s s' : Sys} {a : KernelAction} {v pid : Tid} {k : ℕ} (h : s.Owns v pid k)
    (hv : v ∈ s.cache.tasks) (hok : PackageOk s (.kernel a)) (hk : KernelCase s a s') : s'.Owns v pid k := by
  rcases h with ⟨x, hx, hg, hp, ha⟩ | ⟨e, he, hexit⟩
  · have hlive : v ∈ s.threads := KeyMap.mem_of_lookup hx
    have hfork : ∀ (u c : Tid) (p child : Thread), s.Free c → (s.forked u c p child).Owns v pid k := by
      intro u c p child hc
      have hne : v ≠ c := fun he => hc.2.1 (he ▸ hlive)
      exact Or.inl ⟨x, (lookup_forked v).trans ((if_neg hne).trans hx), hg, hp, mem_applied_forked ha⟩
    cases hk with
    | clone hu hc => exact hfork _ _ _ _ hc
    | spawn hu hc => exact hfork _ _ _ _ hc
    | exec => exact Or.inl ⟨x, hx, hg, hp, ha⟩
    | @takeover t g y ht hl hfree ho =>
        have hne : v ≠ t := fun he => hok (he ▸ hv) (he ▸ ha)
        have hng : v ≠ g := fun he => hfree (he ▸ hlive)
        exact Or.inl ⟨x, (lookup_takenOver v).trans ((if_neg hng).trans ((if_neg hne).trans hx)), hg, hp, ha⟩
    | @rename b t comm p y hb ht htg =>
        by_cases hvt : v = t
        · subst hvt
          rw [ht] at hx
          obtain rfl := Option.some.inj hx
          exact Or.inl ⟨{ y with comm := comm }, (KeyMap.lookup_insert s.threads v v _).trans (if_pos rfl), hg, hp, ha⟩
        · exact Or.inl ⟨x, (KeyMap.lookup_insert s.threads t v _).trans ((if_neg hvt).trans hx), hg, hp, ha⟩
    | @exit t y ht =>
        by_cases hvt : v = t
        · subst hvt
          rw [ht] at hx
          obtain rfl := Option.some.inj hx
          exact Or.inr ⟨_, mem_report.mpr (Or.inr ⟨ha, rfl⟩), rfl, rfl, hg, hp⟩
        · have hx' := (KeyMap.lookup_erase s.threads t v).trans ((if_neg hvt).trans hx)
          exact Or.inl ⟨x, hx', hg, hp, mem_applied_exit ha hvt⟩
  · exact Or.inr ⟨e, hk.frame.2.2.1 e he, hexit⟩

/-- A process that submits an event is not earlier than the one a bound thread answers for. -/
theorem Owns.le_running {s : Sys} {v pid : Tid} {k l : ℕ} (h : s.Owns v pid k) (hw : s.WellFormed) (ho : s.InOrder)
    (hl : s.Running pid l) : k ≤ l := by
  rcases h with ⟨x, hx, hg, hp, -⟩ | ⟨e, he, -, -, rfl, rfl⟩
  · exact (hw.running_unique ⟨v, x, hx, hg, hp⟩ hl).le
  · exact ho.ahead e he l hl

theorem Owned.kernel {s s' : Sys} {a : KernelAction} (h : s.Owned) (hw : s.WellFormed) (ho : s.InOrder)
    (hok : PackageOk s (.kernel a)) (hk : KernelCase s a s') : s'.Owned := by
  obtain ⟨hcache, -, htodo, hprov⟩ := hk.daemon_frame
  refine ⟨by rw [hcache]; exact h.backed, fun v pid hb => ?_⟩
  rw [hcache] at hb
  obtain ⟨k, hown⟩ := h.owner v pid hb
  refine ⟨k, hown.owns.kernel hb.mem hok hk, fun e he hp hbind => ?_, ?_, ?_⟩
  · rcases hk.reporter with hq | ⟨ev, st, hq, hev⟩
    · rw [hq] at he
      exact hown.events e he hp hbind
    · rw [hq] at he
      rcases List.mem_append.mp he with he | he
      · exact hown.events e he hp hbind
      · obtain rfl := List.mem_singleton.mp he
        exact hown.owns.le_running hw ho (hp ▸ hev)
  · rw [hcache, hprov]
    exact hown.package
  · rw [htodo]
    exact hown.jobs

/-- **A bound thread answers for the process of the next event, if that can bind.** -/
theorem Owner.head {s : Sys} {ev : ProcEvent} {st : Stamp} {q : List (ProcEvent × Stamp)} {v : Tid} {k : ℕ}
    (h : s.Owner v ev.pid k) (ho : s.InOrder) (hq : s.queue = (ev, st) :: q) (hb : Binds ev) : k = st.proc := by
  have hmem : (ev, st) ∈ s.queue := by rw [hq]; exact List.mem_cons_self
  refine le_antisymm (h.events (ev, st) hmem rfl hb) ?_
  rcases h.owns with ⟨x, hx, hg, hp, -⟩ | ⟨e, he, -, hexit, hpid, rfl⟩
  · exact ho.ahead (ev, st) hmem k ⟨v, x, hx, hg, hp⟩
  · have hpair := ho.pairwise
    rw [hq, List.pairwise_cons] at hpair
    rw [hq] at he
    rcases List.mem_cons.mp he with rfl | he
    · exact le_rfl
    · exact hpair.1 e he hpid.symm

/-! ### Events -/

theorem handle_prov (s : Sys) (env : Env) (ev : ProcEvent) (st : Stamp) (pid : Tid) :
    (s.handle env ev st).prov pid =
      if pid = ev.pid ∧ (ev.eventType = eventExec ∨ ev.pid ∉ s.cache.pkgs) then st.proc else s.prov pid := by
  show (if ev.eventType = eventExec ∨ ev.pid ∉ s.cache.pkgs then Function.update s.prov ev.pid st.proc
    else s.prov) pid = _
  by_cases hc : ev.eventType = eventExec ∨ ev.pid ∉ s.cache.pkgs
  · rw [if_pos hc, Function.update_apply]
    exact if_congr (and_iff_left hc).symm rfl rfl
  · rw [if_neg hc, if_neg fun h => hc h.2]

/-- **The package of the next event is of its own process afterwards**, if the event can bind. -/
theorem Owned.prov_head {s : Sys} (h : s.Owned) (ho : s.InOrder) {ev : ProcEvent} {st : Stamp}
    {q : List (ProcEvent × Stamp)} (hq : s.queue = (ev, st) :: q) (env : Env) (hb : Binds ev) :
    (s.handle env ev st).prov ev.pid = st.proc := by
  rw [handle_prov]
  split_ifs with hx
  · rfl
  · rw [and_iff_right rfl, not_or, not_not] at hx
    obtain ⟨v, hv⟩ := h.backed ev.pid hx.2
    obtain ⟨k, hown⟩ := h.owner v ev.pid hv
    rw [hown.package hx.2, hown.head ho hq hb]

/-- A bound thread that the event leaves bound answers for its process as before. -/
theorem Owner.handle {s : Sys} {env : Env} {ev : ProcEvent} {st : Stamp} {q : List (ProcEvent × Stamp)} {v pid : Tid}
    {k : ℕ} (h : s.Owner v pid k) (ht : s.todo = []) (hq : s.queue = (ev, st) :: q)
    (happ : v ∈ s.applied → v ∈ (s.handle env ev st).applied) (hexit : ev.eventType = eventExit → ev.tid ≠ v)
    (hpkg : pid ∈ (s.handle env ev st).cache.pkgs → (s.handle env ev st).prov pid = k) :
    ({ s with queue := q }.handle env ev st).Owner v pid k := by
  refine ⟨?_, fun e he => h.events e (by rw [hq]; exact List.mem_cons_of_mem _ he), hpkg, fun j hj => ?_⟩
  · rcases h.owns with ⟨x, hx, hg, hp, ha⟩ | ⟨e, he, htid, hx, hrest⟩
    · exact Or.inl ⟨x, hx, hg, hp, happ ha⟩
    · rw [hq] at he
      rcases List.mem_cons.mp he with rfl | he
      · exact absurd htid (hexit hx)
      · exact Or.inr ⟨e, he, htid, hx, hrest⟩
  · change j ∈ s.todo at hj
    rw [ht] at hj
    exact absurd hj List.not_mem_nil

theorem Owned.dispatch_backed {s : Sys} (h : s.Owned) {env : Env} {ev : ProcEvent} {st : Stamp}
    {q : List (ProcEvent × Stamp)} (hq : s.queue = (ev, st) :: q) (hok : PackageOk s (.dispatch env))
    {out : ProcCache × AppliedMap} (hc : DispatchCase (env.over s.live) ev s.cfg s.cache s.applied out) :
    ∀ pid ∈ out.1.pkgs, out.1.HasTask pid := by
  have hdrop : ∀ pid ∈ s.cache.pkgs.erase ev.pid, s.cache.HasTask pid := fun pid hp =>
    h.backed pid (AList.mem_erase.mp hp).2
  cases hc with
  | exit =>
      refine backed_taskDel ?_ ev.tid
      split_ifs
      · exact hdrop
      · exact h.backed
  | dropped => exact @backed_taskDel { s.cache with pkgs := s.cache.pkgs.erase ev.pid } hdrop ev.tid
  | unresolved => exact h.backed
  | @applied p pc₁ out hb hr ht hp hc =>
      obtain ⟨pkgs, tasks⟩ := pc₁
      obtain rfl : tasks = s.cache.tasks := ht
      obtain ⟨hanew, hold⟩ := hok ev st q p hq hb hr
      intro pid hpid
      rw [taskApply_pkgs hc, KeyMap.mem_iff_lookup, hp pid] at hpid
      by_cases hpe : pid = ev.pid
      · subst hpe
        by_cases hre : Rebinds env.createDir s.cache s.cfg ev.tid p.1 (eventName ev p)
        · cases hl : s.live ev.tid with
          | true => exact ⟨ev.tid, apply_bound hc hre hl⟩
          | false => exact apply_other hc ((hanew hre).2.1 hl)
        · exact apply_hasTask hc (hold hre) fun hre' => absurd hre' hre
      · rw [if_neg hpe, ← KeyMap.mem_iff_lookup] at hpid
        exact apply_hasTask hc (h.backed pid hpid) fun hre hbt => Or.inl ((hanew hre).1 pid hpid hpe hbt)
  | ignored => exact h.backed

/-- A thread that an event leaves bound was bound, and its process's package is of the process
it answers for; or it is live in the process of the event and has just been bound. -/
theorem Owned.dispatch_owner {s : Sys} (h : s.Owned) (ho : s.InOrder) {env : Env} {ev : ProcEvent} {st : Stamp}
    {q : List (ProcEvent × Stamp)} (hq : s.queue = (ev, st) :: q) (hok : PackageOk s (.dispatch env))
    {out : ProcCache × AppliedMap} (hc : DispatchCase (env.over s.live) ev s.cfg s.cache s.applied out) {v pid : Tid}
    (hb : out.1.BoundTo v pid) :
    (∃ k, s.Owner v pid k ∧ (v ∈ s.applied → v ∈ out.2) ∧ (ev.eventType = eventExit → ev.tid ≠ v) ∧
      (pid ∈ out.1.pkgs → (s.handle env ev st).prov pid = k)) ∨
    (pid = ev.pid ∧ v ∈ out.2 ∧ (s.handle env ev st).prov pid = st.proc ∧
      ∃ x, s.threads.lookup v = some x ∧ x.tgid = pid ∧ x.proc = st.proc) := by
  -- an event that maps nothing leaves the stamps of the mapped processes alone
  have hsame : ∀ {v pid k}, s.Owner v pid k → pid ∈ s.cache.pkgs → (pid = ev.pid → ev.eventType ≠ eventExec) →
      (s.handle env ev st).prov pid = k := by
    intro v pid k hown hm hne
    rw [handle_prov, if_neg, hown.package hm]
    rintro ⟨rfl, hx | hx⟩
    · exact hne rfl hx
    · exact hx hm
  cases hc with
  | exit he =>
      obtain ⟨hne, hb⟩ := boundTo_taskDel.mp hb
      have hb : s.cache.BoundTo v pid := by
        split_ifs at hb
        · exact hb
        · exact hb
      obtain ⟨k, hown⟩ := h.owner v pid hb
      refine Or.inl ⟨k, hown, fun ha => mem_appliedDel.mpr ⟨hne, ha⟩, fun _ => hne.symm, fun hm => ?_⟩
      refine hsame hown ?_ fun _ hx => ?_
      · have hm := (mem_pkgs_taskDel.mp hm).1
        split_ifs at hm
        · exact (AList.mem_erase.mp hm).2
        · exact hm
      · rw [he] at hx
        exact absurd hx (by decide)
  | dropped he hr =>
      obtain ⟨hne, hb⟩ := boundTo_taskDel.mp hb
      obtain ⟨k, hown⟩ := h.owner v pid hb
      refine Or.inl ⟨k, hown, fun ha => mem_appliedDel.mpr ⟨hne, ha⟩, fun _ => hne.symm, fun hm => ?_⟩
      obtain ⟨hpe, hm⟩ := AList.mem_erase.mp (mem_pkgs_taskDel.mp hm).1
      exact hsame hown hm fun hx => absurd hx hpe
  | unresolved he hr =>
      obtain ⟨k, hown⟩ := h.owner v pid hb
      refine Or.inl ⟨k, hown, id, fun hx => absurd hx (Binds.ne_exit (Or.inr he)),
        fun hm => hsame hown hm fun _ hx => ?_⟩
      rcases he with he | he
      all_goals
        rw [he] at hx
        exact absurd hx (by decide)
  | @applied p pc₁ out hbind hr ht hp hc =>
      obtain ⟨pkgs, tasks⟩ := pc₁
      obtain rfl : tasks = s.cache.tasks := ht
      have hnow := h.prov_head ho hq env hbind
      rcases apply_boundTo hc hb with hb | ⟨rfl, rfl, hl, ha, hre⟩
      · obtain ⟨k, hown⟩ := h.owner v pid hb
        refine Or.inl ⟨k, hown, apply_applied hc, fun hx => absurd hx hbind.ne_exit, fun hm => ?_⟩
        by_cases hpe : pid = ev.pid
        · subst hpe
          rw [hnow, hown.head ho hq hbind]
        · refine hsame hown ?_ fun hx => absurd hx hpe
          rw [taskApply_pkgs hc, KeyMap.mem_iff_lookup, hp pid, if_neg hpe, ← KeyMap.mem_iff_lookup] at hm
          exact hm
      · obtain ⟨x, hx⟩ := KeyMap.mem_iff_lookup.mp (live_iff.mp hl)
        obtain ⟨hg, hproc⟩ := ((hok ev st q p hq hbind hr).1 hre).2.2 x hx
        exact Or.inr ⟨rfl, ha, hnow, x, hx, hg, hproc⟩
  | ignored he hn =>
      obtain ⟨k, hown⟩ := h.owner v pid hb
      exact Or.inl ⟨k, hown, id, fun hx => absurd hx he, fun hm => hsame hown hm fun _ hx => hn (Or.inl hx)⟩

theorem Owned.handle {s : Sys} (h : s.Owned) (ho : s.InOrder) (ht : s.todo = []) {env : Env} {ev : ProcEvent}
    {st : Stamp} {q : List (ProcEvent × Stamp)} (hq : s.queue = (ev, st) :: q) (hok : PackageOk s (.dispatch env)) :
    ({ s with queue := q }.handle env ev st).Owned := by
  have hc := eventDispatch_case (env.over s.live) ev s.cfg s.cache s.applied
  refine ⟨h.dispatch_backed hq hok hc, fun v pid hb => ?_⟩
  rcases h.dispatch_owner ho hq hok hc hb with ⟨k, hown, happ, hexit, hpkg⟩ | ⟨rfl, ha, hprov, x, hx, hg, hp⟩
  · exact ⟨k, hown.handle ht hq happ hexit hpkg⟩
  · have hpair := ho.pairwise
    rw [hq, List.pairwise_cons] at hpair
    refine ⟨st.proc, Or.inl ⟨x, hx, hg, hp, ha⟩, fun e he hpe _ => hpair.1 e he hpe.symm, fun _ => hprov, fun j hj => ?_⟩
    change j ∈ s.todo at hj
    rw [ht] at hj
    exact absurd hj List.not_mem_nil

/-! ### The jobs -/

/-- A bound thread answers for its process as before when the queue and the threads stay. -/
theorem Owner.mono {s s' : Sys} {v pid : Tid} {k : ℕ} (h : s.Owner v pid k) (hthreads : s'.threads = s.threads)
    (hqueue : s'.queue = s.queue) (happ : v ∈ s.applied → v ∈ s'.applied)
    (hjobs : ∀ j ∈ s'.todo, j ∈ s.todo ∨ j.target = none) (hpkg : pid ∈ s'.cache.pkgs → s'.prov pid = k) :
    s'.Owner v pid k := by
  refine ⟨?_, by rw [hqueue]; exact h.events, hpkg, fun j hj l hl => ?_⟩
  · unfold Owns
    rw [hthreads, hqueue]
    refine h.owns.imp_left ?_
    rintro ⟨x, hx, hg, hp, ha⟩
    exact ⟨x, hx, hg, hp, happ ha⟩
  · rcases hjobs j hj with hj | hj
    · exact h.jobs j hj l hl
    · rw [hj] at hl
      cases hl

theorem not_boundTo_new {v pid : Tid} : ¬ ProcCache.new.BoundTo v pid := by
  rintro ⟨e, he, -⟩
  cases he

/-- The first job is done and has no effect on the cache. -/
theorem Owned.tail {s : Sys} (h : s.Owned) {j : Job} {rest : List Job} (ht : s.todo = j :: rest) :
    Owned { s with todo := rest } := by
  refine ⟨h.backed, fun v pid hb => ?_⟩
  obtain ⟨k, hown⟩ := h.owner v pid hb
  refine ⟨k, hown.mono rfl rfl id (fun i hi => Or.inl ?_) hown.package⟩
  rw [ht]
  exact List.mem_cons_of_mem j hi

/-- The thread that a scan binds is of the process that was read. -/
theorem Owned.bind {s : Sys} (h : s.Owned) (hp : s.Planned) {pid : Tid} {pkg : Str} {htr : Bool} {k : ℕ}
    {x : TidReading} {rest : List Job} (ht : s.todo = .bind pid pkg htr k x :: rest)
    (hok : s.JobSound (.bind pid pkg htr k x)) : ({ s with todo := rest }.runJob (.bind pid pkg htr k x)).Owned := by
  have hc := taskApply_case (x.env.over s.live).createDir s.cache x.tid pid pkg (scanName htr x.comm) htr s.cfg true
    (eventAffinityApply (x.env.over s.live) s.cfg.topo) s.applied
  have hmem : ∀ i ∈ rest, i ∈ s.todo := fun i hi => by rw [ht]; exact List.mem_cons_of_mem _ hi
  have hself : Job.bind pid pkg htr k x ∈ s.todo := by rw [ht]; exact List.mem_cons_self
  refine ⟨fun q hq => ?_, fun v q hb => ?_⟩
  · rw [runJob_bind_pkgs] at hq
    exact apply_hasTask hc (h.backed q hq) fun hre hb => (hok hre).1 q hq hb
  · rcases apply_boundTo hc hb with hb | ⟨rfl, rfl, hl, ha, hre⟩
    · obtain ⟨l, hown⟩ := h.owner v q hb
      refine ⟨l, hown.mono rfl rfl (apply_applied hc) (fun i hi => Or.inl (hmem i hi)) fun hq => ?_⟩
      rw [runJob_bind_pkgs] at hq
      exact hown.package hq
    · obtain ⟨y, hy⟩ := KeyMap.mem_iff_lookup.mp (live_iff.mp hl)
      obtain ⟨hg, hproc, hevents⟩ := (hok hre).2 y hy
      refine ⟨k, Or.inl ⟨y, hy, hg, hproc, ha⟩, hevents, fun hq => ?_, fun j hj l hl => ?_⟩
      · rw [runJob_bind_pkgs] at hq
        exact hp.mapped _ hself q k rfl hq
      · exact hp.agree j (hmem j hj) _ hself q l k hl rfl

theorem Owned.record {s : Sys} (h : s.Owned) {pid : Tid} {pkg : Str} {htr : Bool} {k : ℕ}
    {rest : List Job} (ht : s.todo = .record pid pkg htr k :: rest) (hok : s.JobSound (.record pid pkg htr k)) :
    ({ s with todo := rest }.runJob (.record pid pkg htr k)).Owned := by
  have hself : Job.record pid pkg htr k ∈ s.todo := by rw [ht]; exact List.mem_cons_self
  refine ⟨fun q hq => ?_, fun v q hb => ?_⟩
  · rcases KeyMap.mem_insert.mp hq with rfl | hq
    · exact hok
    · exact h.backed q hq
  · obtain ⟨l, hown⟩ := h.owner v q hb
    refine ⟨l, hown.mono rfl rfl id (fun i hi => Or.inl ?_) fun hq => ?_⟩
    · rw [ht]
      exact List.mem_cons_of_mem _ hi
    · show Function.update s.prov pid k q = l
      by_cases hqp : q = pid
      · subst hqp
        rw [Function.update_self]
        exact hown.jobs _ hself k rfl
      · rw [Function.update_of_ne hqp]
        exact hown.package ((KeyMap.mem_insert.mp hq).resolve_left hqp)

theorem Owned.job {s : Sys} (h : s.Owned) (hn : s.Covered) (hp : s.Planned) {j : Job} {rest : List Job}
    (ht : s.todo = j :: rest) (hok : s.JobSound j) : ({ s with todo := rest }.runJob j).Owned := by
  have hmem : ∀ i ∈ rest, i ∈ s.todo := fun i hi => by rw [ht]; exact List.mem_cons_of_mem j hi
  have htail := h.tail ht
  cases j with
  | del t =>
      have hfree : t ∉ s.cache.tasks := hn.pending t (by rw [ht]; exact List.mem_cons_self)
      refine ⟨h.backed, fun v pid hb => ?_⟩
      obtain ⟨k, hown⟩ := h.owner v pid hb
      refine ⟨k, hown.mono rfl rfl (fun ha => mem_appliedDel.mpr ⟨?_, ha⟩) (fun i hi => Or.inl (hmem i hi)) hown.package⟩
      rintro rfl
      exact hfree hb.mem
  | look r =>
      show ({ s with todo := rest }.lookAt r).Owned
      rcases lookAt_case { s with todo := rest } r with he | ⟨k, t, -, -, he⟩
      · rw [he]
        exact htail
      · -- nothing is cached yet
        have hidle : s.cache = ProcCache.new := hp.idle r (by rw [ht]; exact List.mem_cons_self)
        rw [he]
        refine ⟨h.backed, fun v pid hb => ?_⟩
        change s.cache.BoundTo v pid at hb
        rw [hidle] at hb
        exact absurd hb not_boundTo_new
  | bind pid pkg htr k x => exact h.bind hp ht hok
  | record pid pkg htr k => exact h.record ht hok
  | probe t env =>
      show ({ s with todo := rest }.probe t env).Owned
      rcases probe_case { s with todo := rest } t env with he | he
      · rw [he]
        exact htail
      · rw [he]
        refine ⟨htail.backed, fun v pid hb => ?_⟩
        obtain ⟨k, hown⟩ := htail.owner v pid hb
        exact ⟨k, hown.mono rfl rfl id (fun i hi => Or.inl hi) hown.package⟩
  | reap =>
      refine ⟨backed_foldl_taskDel _ _ h.backed, fun v pid hb => ?_⟩
      obtain ⟨k, hown⟩ := h.owner v pid (boundTo_foldl_taskDel.mp hb).2
      refine ⟨k, hown.mono rfl rfl id (fun i hi => ?_) fun hq => hown.package (mem_pkgs_foldl_taskDel.mp hq).1⟩
      rcases List.mem_append.mp hi with hi | hi
      · obtain ⟨t, -, rfl⟩ := List.mem_map.mp hi
        exact Or.inr rfl
      · exact Or.inl (hmem i hi)

/-! ### Runs -/

/-- What holds along runs that keep every package with its process. -/
structure PackagesRight (s : Sys) : Prop where
  wf : s.WellFormed
  order : s.InOrder
  covered : s.Covered
  owned : s.Owned
  planned : s.Planned

theorem packagesRight_init {s : Sys} (h : s.Init) : s.PackagesRight := by
  refine ⟨h.wf, inOrder_init h, covered_init h, ⟨fun pid hp => ?_, fun v pid hb => ?_⟩, planned_of_plain fun j hj => ?_⟩
  · rw [h.cache] at hp
    exact absurd hp (AList.notMem_empty pid)
  · rw [h.cache] at hb
    exact absurd hb not_boundTo_new
  · rw [h.todo] at hj
    exact absurd hj List.not_mem_nil

theorem PackagesRight.step {L : Layout} {s s' : Sys} {a : Action} (h : s.PackagesRight) (hok : PackageOk s a)
    (hs : step L s a = some s') : s'.PackagesRight := by
  have hplan : s'.Planned := by
    refine h.planned.step h.covered (fun cfg target dir ha => ?_) hs
    subst ha
    exact hok
  refine ⟨h.wf.step hs, h.order.step h.wf hs, h.covered.step hs, ?_, hplan⟩
  cases step_case hs with
  | kernel hk => exact h.owned.kernel h.wf h.order hok hk
  | dispatch ht hq => exact h.owned.handle h.order ht hq hok
  | scan ht => exact ⟨fun pid hp => absurd hp (AList.notMem_empty pid), fun v pid hb => absurd hb not_boundTo_new⟩
  | @sync env ht =>
      refine ⟨h.owned.backed, fun v pid hb => ?_⟩
      obtain ⟨k, hown⟩ := h.owned.owner v pid hb
      exact ⟨k, hown.mono rfl rfl id (fun j hj => Or.inr (plain_sync _ _ j hj).2) hown.package⟩
  | @job j rest ht => exact h.owned.job h.covered h.planned ht (hok j rest ht)

/-- **Along runs whose steps meet the condition, every event that can bind is handled under a
package that was resolved from its own process.** -/
theorem package_of_same_process (L : Layout) (s s' : Sys) (env : Env)
    (h : Runs.Reachable (step L) PackageOk Init s) (hs : step L s (.dispatch env) = some s') :
    ∃ ev st q, s.queue = (ev, st) :: q ∧ (Binds ev → s'.prov ev.pid = st.proc) := by
  have hinv : s.PackagesRight :=
    h.invariant (fun s h => packagesRight_init h) fun s a s' hI hok hs => hI.step hok hs
  cases step_case hs with
  | @dispatch _ ev st q ht hq => exact ⟨ev, st, q, hq, hinv.owned.prov_head hinv.order hq env⟩

/-- The thread 100 creates a process. -/
def spawns (c : Tid) : Action := .kernel (.spawn 100 c)

/-- The process 200 takes the name `com.a` and exits before its event is handled; the next
process 200 takes the name `com.b`, and its event is handled under `com.a`. -/
theorem stale_package_used :
    ∃ s s', Runs.run (step someLayout) (appProcess "zygote".toList)
        [spawns 200, renames 200 "com.a", .kernel (.exit 200), .dispatch allAlive, spawns 200,
          renames 200 "com.b"] = some s ∧
      step someLayout s (.dispatch allAlive) = some s' ∧
      ∃ ev st, s.queue = [(ev, st)] ∧ Binds ev ∧ commStr ev.comm = "com.b".toList ∧
        (∃ p, resolved s.cache s.cfg ev = some p ∧ p.1 = "com.a".toList) ∧ s'.prov ev.pid ≠ st.proc ∧
        ¬ s.Running ev.pid (s'.prov ev.pid) := by
  obtain ⟨s, hs, hp⟩ := Runs.exists_run (step someLayout) (appProcess "zygote".toList)
    [spawns 200, renames 200 "com.a", .kernel (.exit 200), .dispatch allAlive, spawns 200, renames 200 "com.b"]
    (fun s : Sys => (step someLayout s (.dispatch allAlive)).any (fun s' : Sys =>
      s.queue.length == 1 && s.queue.all (fun e => decide (Binds e.1) && commStr e.1.comm == "com.b".toList &&
        (resolved s.cache s.cfg e.1).any (fun p => p.1 == "com.a".toList) && s'.prov e.1.pid != e.2.proc &&
        !s.threads.anyValue (fun x => x.proc == s'.prov e.1.pid)))) (by decide)
  obtain ⟨s', hs', hp⟩ := (Option.any_eq_true _ _).mp hp
  rw [Bool.and_eq_true, beq_iff_eq, List.length_eq_one_iff, List.all_eq_true] at hp
  obtain ⟨⟨⟨ev, st⟩, hq⟩, hall⟩ := hp
  have hev := hall (ev, st) (by rw [hq]; exact List.mem_singleton_self _)
  simp only [Bool.and_eq_true, decide_eq_true_eq, beq_iff_eq, bne_iff_ne, Option.any_eq_true, Bool.not_eq_true'] at hev
  obtain ⟨⟨⟨⟨hb, hname⟩, hres⟩, hne⟩, hgone⟩ := hev
  refine ⟨s, s', hs, hs', ev, st, hq, hb, hname, hres, hne, ?_⟩
  rintro ⟨t, x, hx, -, hproc⟩
  have hany : s.threads.anyValue (fun x => x.proc == s'.prov ev.pid) = true :=
    KeyMap.anyValue_iff.mpr ⟨t, x, hx, beq_iff_eq.mpr hproc⟩
  rw [hgone] at hany
  cases hany

/-- The main thread's rename maps the package, and its new thread is bound under it. -/
theorem package_of_same_process_cloned :
    ∃ s₀ s s', Runs.run (step someLayout) (appProcess "zygote".toList) [renames 100 "com.a", clones 100 101] = some s₀ ∧
      step someLayout s₀ (.dispatch allAlive) = some s ∧ step someLayout s (.dispatch allAlive) = some s' ∧
      ∃ ev st q, s.queue = (ev, st) :: q ∧ (Binds ev → s'.prov ev.pid = st.proc) := by
  obtain ⟨s₀, h₀, hp⟩ := Runs.exists_run (step someLayout) (appProcess "zygote".toList)
    [renames 100 "com.a", clones 100 101]
    (fun s₀ : Sys => s₀.cache.pkgs.entries.isEmpty && s₀.queue.all (fun e => (s₀.threads.lookup e.1.tid).any (fun x =>
        x.tgid == e.1.pid && x.proc == e.2.proc)) &&
      (s₀.queue.head?.any (fun e => (resolved s₀.cache s₀.cfg e.1).any (fun p =>
        (threadAffinity allAlive.createDir p.1 (eventName e.1 p) s₀.cfg s₀.cfg.topo).any (fun r =>
          !s₀.cache.keeps e.1.tid r)))) &&
      (step someLayout s₀ (.dispatch allAlive)).any (fun s : Sys => (step someLayout s (.dispatch allAlive)).isSome))
    (by decide)
  simp only [Bool.and_eq_true, List.isEmpty_iff, List.all_eq_true, Option.any_eq_true, beq_iff_eq] at hp
  obtain ⟨⟨⟨hempty, hown⟩, hrules⟩, s, hs, hsome⟩ := hp
  obtain ⟨s', hs'⟩ := Option.isSome_iff_exists.mp hsome
  have hok : PackageOk s₀ (.dispatch allAlive) := by
    intro ev st q p hq hb hr
    rw [hq] at hrules
    obtain ⟨e, he, p', hp', r, hr', hk⟩ := hrules
    obtain rfl := Option.some.inj he
    obtain rfl := Option.some.inj (hr.symm.trans hp')
    rw [Bool.not_eq_true'] at hk
    have hre : Rebinds allAlive.createDir s₀.cache s₀.cfg ev.tid p.1 (eventName ev p) := ⟨r, hr', hk⟩
    obtain ⟨x, hx, hg, hproc⟩ := hown (ev, st) (by rw [hq]; exact List.mem_cons_self)
    have hnone : ∀ pid, pid ∉ s₀.cache.pkgs := by
      intro pid hm
      obtain ⟨b, hb⟩ := KeyMap.mem_iff_lookup.mp hm
      have := AList.mem_lookup_iff.mp hb
      rw [hempty] at this
      exact absurd this List.not_mem_nil
    refine ⟨fun _ => ⟨fun pid hm => absurd hm (hnone pid), fun hl => ?_, fun y hy => ?_⟩, fun hn => absurd hre hn⟩
    · unfold live at hl
      rw [hx] at hl
      cases hl
    · obtain rfl := Option.some.inj (hx.symm.trans hy)
      exact ⟨hg, hproc⟩
  have hkernel : ∀ a ∈ [renames 100 "com.a", clones 100 101], ∀ s, PackageOk s a := by
    intro a ha s
    rcases List.mem_cons.mp ha with rfl | ha
    · trivial
    · rw [List.mem_singleton.mp ha]
      trivial
  exact ⟨s₀, s, s', h₀, hs, hs', package_of_same_process someLayout s s' allAlive
    ⟨_, appProcess_init "zygote".toList, (Runs.steps_of_run hkernel h₀).tail hok hs⟩ hs'⟩

end Sys

end AetherOptExt
