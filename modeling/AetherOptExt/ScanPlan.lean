import AetherOptExt.DeadThreads
import AetherOptExt.Discovery

/-! # The plan of a running scan

A scan first lists the processes it will read, then reads them one by one, and then binds their
threads and maps them.  Kernel actions may come between these jobs; the daemon's own plan stays
consistent meanwhile (`Planned`), when the directory listing has each process once. -/

namespace AetherOptExt

open ProcCache

namespace Sys

/-- The pending jobs of a scan: nothing is cached while processes are still to be read, each is
read once, and the jobs of one process are stamped alike, as its package is once it is mapped. -/
structure Planned (s : Sys) : Prop where
  idle : ∀ r, Job.look r ∈ s.todo → s.cache = ProcCache.new
  looks : (s.todo.filterMap Job.lookPid).Nodup
  fresh : ∀ j ∈ s.todo, ∀ pid k, j.target = some (pid, k) → pid ∉ s.todo.filterMap Job.lookPid
  agree : ∀ i ∈ s.todo, ∀ j ∈ s.todo, ∀ pid k l, i.target = some (pid, k) → j.target = some (pid, l) → k = l
  mapped : ∀ j ∈ s.todo, ∀ pid k, j.target = some (pid, k) → pid ∈ s.cache.pkgs → s.prov pid = k

/-- The jobs of a correction are not of a scan. -/
theorem plain_sync (ts : List Tid) (env : Tid → Env) :
    ∀ j ∈ ts.map (fun t => Job.probe t (env t)) ++ [Job.reap], (∀ r, j ≠ .look r) ∧ j.target = none := by
  intro j hj
  rcases List.mem_append.mp hj with hj | hj
  · obtain ⟨t, -, rfl⟩ := List.mem_map.mp hj
    exact ⟨fun _ => Job.noConfusion, rfl⟩
  · rw [List.mem_singleton.mp hj]
    exact ⟨fun _ => Job.noConfusion, rfl⟩

/-- No job is of a scan. -/
theorem planned_of_plain {s : Sys} (h : ∀ j ∈ s.todo, (∀ r, j ≠ .look r) ∧ j.target = none) : s.Planned := by
  have hnone : s.todo.filterMap Job.lookPid = [] := by
    refine List.filterMap_eq_nil_iff.mpr fun j hj => ?_
    cases j with
    | look r => exact absurd rfl ((h _ hj).1 r)
    | _ => rfl
  refine ⟨fun r hr => absurd rfl ((h _ hr).1 r), ?_, fun j hj pid k ht => ?_, fun i hi j hj pid k l hk => ?_,
    fun j hj pid k ht => ?_⟩
  · rw [hnone]
    exact List.nodup_nil
  · rw [(h j hj).2] at ht
    cases ht
  · rw [(h i hi).2] at hk
    cases hk
  · rw [(h j hj).2] at ht
    cases ht

theorem filterMap_lookPid_dels (ts : List Tid) : (ts.map Job.del).filterMap Job.lookPid = [] := by
  rw [List.filterMap_map]
  exact List.filterMap_eq_nil_iff.mpr fun _ _ => rfl

theorem Planned.scan {cfg : AppConfig} {target : TargetMap} {dir : List ProcReading} (s : Sys) (h : DistinctPids dir) :
    Planned { s with cfg := cfg, target := target, cache := s.cache.clear
                     todo := s.applied.keys.map Job.del ++ dir.map Job.look } := by
  have hlooks : (s.applied.keys.map Job.del ++ dir.map Job.look).filterMap Job.lookPid = dir.filterMap ProcReading.pid := by
    rw [List.filterMap_append, filterMap_lookPid_dels, List.filterMap_map]
    rfl
  have htarget : ∀ j ∈ s.applied.keys.map Job.del ++ dir.map Job.look, j.target = none := by
    intro j hj
    rcases List.mem_append.mp hj with hj | hj
    · obtain ⟨t, -, rfl⟩ := List.mem_map.mp hj
      rfl
    · obtain ⟨r, -, rfl⟩ := List.mem_map.mp hj
      rfl
  refine ⟨fun _ _ => rfl, ?_, fun j hj pid k ht => ?_, fun i hi j hj pid k l hk => ?_, fun j hj pid k ht => ?_⟩
  · show (List.filterMap Job.lookPid _).Nodup
    rw [hlooks]
    exact h
  · rw [htarget j hj] at ht
    cases ht
  · rw [htarget i hi] at hk
    cases hk
  · rw [htarget j hj] at ht
    cases ht

/-- Deletions can be put first. -/
theorem Planned.dels {s : Sys} (h : s.Planned) (ts : List Tid) :
    Planned { s with todo := ts.map Job.del ++ s.todo } := by
  have hold : ∀ j ∈ ts.map Job.del ++ s.todo, j ∈ s.todo ∨ ∃ t, j = .del t := by
    intro j hj
    rcases List.mem_append.mp hj with hj | hj
    · obtain ⟨t, -, rfl⟩ := List.mem_map.mp hj
      exact Or.inr ⟨t, rfl⟩
    · exact Or.inl hj
  have htarget : ∀ j ∈ ts.map Job.del ++ s.todo, ∀ pid k, j.target = some (pid, k) → j ∈ s.todo := by
    intro j hj pid k hk
    rcases hold j hj with hj | ⟨t, rfl⟩
    · exact hj
    · cases hk
  have hlooks : (ts.map Job.del ++ s.todo).filterMap Job.lookPid = s.todo.filterMap Job.lookPid := by
    rw [List.filterMap_append, filterMap_lookPid_dels, List.nil_append]
  refine ⟨fun r hr => ?_, ?_, fun j hj pid k hk => ?_, fun i hi j hj pid k l hk hl => ?_,
    fun j hj pid k hk => h.mapped j (htarget j hj pid k hk) pid k hk⟩
  · rcases hold _ hr with hr | ⟨t, he⟩
    · exact h.idle r hr
    · cases he
  · show (List.filterMap Job.lookPid _).Nodup
    rw [hlooks]
    exact h.looks
  · show pid ∉ List.filterMap Job.lookPid _
    rw [hlooks]
    exact h.fresh j (htarget j hj pid k hk) pid k hk
  · exact h.agree i (htarget i hi pid k hk) j (htarget j hj pid l hl) pid k l hk hl

/-- The plan without its first job, after a write that maps no process with a pending job anew
and none while processes are still to be read. -/
theorem Planned.tail {s s' : Sys} (h : s.Planned) {j : Job} {rest : List Job} (ht : s.todo = j :: rest)
    (hs' : s'.todo = rest) (hcache : (∃ r, Job.look r ∈ rest) → s'.cache = s.cache)
    (hmapped : ∀ i ∈ rest, ∀ pid k, i.target = some (pid, k) → pid ∈ s'.cache.pkgs → s'.prov pid = k) :
    s'.Planned := by
  have hmem : ∀ i ∈ rest, i ∈ s.todo := fun i hi => by rw [ht]; exact List.mem_cons_of_mem j hi
  have hsub : (rest.filterMap Job.lookPid).Sublist (s.todo.filterMap Job.lookPid) := by
    rw [ht]
    exact (List.sublist_cons_self j rest).filterMap _
  refine ⟨fun r hr => ?_, ?_, fun i hi pid k hk hm => ?_, fun i hi i' hi' => ?_, ?_⟩
  · rw [hs'] at hr
    rw [hcache ⟨r, hr⟩]
    exact h.idle r (hmem _ hr)
  · rw [hs']
    exact h.looks.sublist hsub
  · rw [hs'] at hi hm
    exact h.fresh i (hmem i hi) pid k hk (hsub.subset hm)
  · rw [hs'] at hi hi'
    exact h.agree i (hmem i hi) i' (hmem i' hi')
  · rw [hs']
    exact hmapped

/-- Looking at a process that is selected plans its jobs. -/
theorem Planned.look {s : Sys} (h : s.Planned) {r : ProcReading} {rest : List Job} (ht : s.todo = .look r :: rest)
    {t : ScanTarget} {k : ℕ} (hs : scanTarget s.cfg r = some t) :
    Planned { s with todo := rest ++ targetJobs t k } := by
  have hmem : ∀ i ∈ rest, i ∈ s.todo := fun i hi => by rw [ht]; exact List.mem_cons_of_mem _ hi
  have hidle : s.cache = ProcCache.new := h.idle r (by rw [ht]; exact List.mem_cons_self)
  obtain ⟨pid, pkg, hpid, -, -, rfl⟩ := scanTarget_eq_some.mp hs
  -- the process that is looked at is the first of those still to be read
  have hpids : s.todo.filterMap Job.lookPid = pid :: rest.filterMap Job.lookPid := by
    rw [ht]
    exact List.filterMap_cons_some hpid
  have hnew : ∀ j ∈ targetJobs ⟨pid, pkg, s.cfg.pkgHasThreadRules pkg, r.tids⟩ k, j.target = some (pid, k) ∧
      j.lookPid = none ∧ ∀ r, j ≠ .look r := by
    intro j hj
    rcases mem_targetJobs hj with ⟨x, rfl⟩ | rfl
    · exact ⟨rfl, rfl, fun _ => Job.noConfusion⟩
    · exact ⟨rfl, rfl, fun _ => Job.noConfusion⟩
  have hlooks : (rest ++ targetJobs ⟨pid, pkg, s.cfg.pkgHasThreadRules pkg, r.tids⟩ k).filterMap Job.lookPid =
      rest.filterMap Job.lookPid := by
    rw [List.filterMap_append, List.filterMap_eq_nil_iff.mpr fun j hj => (hnew j hj).2.1, List.append_nil]
  have hnodup := h.looks
  rw [hpids, List.nodup_cons] at hnodup
  -- no job of the process was planned before
  have hother : ∀ j ∈ rest, ∀ l, j.target ≠ some (pid, l) := fun j hj l hl =>
    h.fresh j (hmem j hj) pid l hl (by rw [hpids]; exact List.mem_cons_self)
  refine ⟨fun _ _ => hidle, ?_, fun j hj p l hl hm => ?_, fun i hi j hj p l m hl hm => ?_, fun j _ p l _ hp => ?_⟩
  · show (List.filterMap Job.lookPid _).Nodup
    rw [hlooks]
    exact hnodup.2
  · change p ∈ List.filterMap Job.lookPid _ at hm
    rw [hlooks] at hm
    rcases List.mem_append.mp hj with hj | hj
    · exact h.fresh j (hmem j hj) p l hl (by rw [hpids]; exact List.mem_cons_of_mem _ hm)
    · rw [(hnew j hj).1] at hl
      obtain ⟨rfl, -⟩ := Prod.mk.inj (Option.some.inj hl)
      exact hnodup.1 hm
  · rcases List.mem_append.mp hi with hi | hi
    · rcases List.mem_append.mp hj with hj | hj
      · exact h.agree i (hmem i hi) j (hmem j hj) p l m hl hm
      · rw [(hnew j hj).1] at hm
        obtain ⟨rfl, -⟩ := Prod.mk.inj (Option.some.inj hm)
        exact absurd hl (hother i hi l)
    · rw [(hnew i hi).1] at hl
      obtain ⟨rfl, rfl⟩ := Prod.mk.inj (Option.some.inj hl)
      rcases List.mem_append.mp hj with hj | hj
      · exact absurd hm (hother j hj m)
      · rw [(hnew j hj).1] at hm
        exact (Prod.mk.inj (Option.some.inj hm)).2
  · change p ∈ s.cache.pkgs at hp
    rw [hidle] at hp
    exact absurd hp (AList.notMem_empty p)

theorem Planned.job {s : Sys} (h : s.Planned) (hn : s.Covered) {j : Job} {rest : List Job}
    (ht : s.todo = j :: rest) : ({ s with todo := rest }.runJob j).Planned := by
  have hself : j ∈ s.todo := by rw [ht]; exact List.mem_cons_self
  have hmem : ∀ i ∈ rest, i ∈ s.todo := fun i hi => by rw [ht]; exact List.mem_cons_of_mem j hi
  have hmapped : ∀ i ∈ rest, ∀ pid k, i.target = some (pid, k) → pid ∈ s.cache.pkgs → s.prov pid = k := fun i hi =>
    h.mapped i (hmem i hi)
  -- after a job of the last phase no process is still to be read
  have hlate : j.phase = 2 → ¬ ∃ r, Job.look r ∈ rest := by
    rintro hj ⟨r, hr⟩
    have ho := hn.order
    rw [ht, List.pairwise_cons] at ho
    have hle : j.phase ≤ 1 := ho.1 _ hr
    omega
  cases j with
  | del t => exact h.tail ht rfl (fun _ => rfl) hmapped
  | look r =>
      show ({ s with todo := rest }.lookAt r).Planned
      rcases lookAt_case { s with todo := rest } r with he | ⟨k, t, -, hs, he⟩
      · rw [he]
        exact h.tail ht rfl (fun _ => rfl) hmapped
      · rw [he]
        exact h.look ht hs
  | bind pid pkg htr k x =>
      refine h.tail ht rfl (fun hr => absurd hr (hlate rfl)) fun i hi q l hl hq => ?_
      rw [runJob_bind_pkgs] at hq
      exact hmapped i hi q l hl hq
  | record pid pkg htr k =>
      refine h.tail ht rfl (fun hr => absurd hr (hlate rfl)) fun i hi q l hl hq => ?_
      show Function.update s.prov pid k q = l
      by_cases hqp : q = pid
      · subst hqp
        rw [Function.update_self]
        exact h.agree _ hself i (hmem i hi) q k l rfl hl
      · rw [Function.update_of_ne hqp]
        exact hmapped i hi q l hl ((KeyMap.mem_insert.mp hq).resolve_left hqp)
  | probe t env =>
      show ({ s with todo := rest }.probe t env).Planned
      rcases probe_case { s with todo := rest } t env with he | he
      · rw [he]
        exact h.tail ht rfl (fun _ => rfl) hmapped
      · rw [he]
        exact h.tail ht rfl (fun _ => rfl) hmapped
  | reap =>
      have htail : Planned { s with todo := rest, cache := s.dead.foldl ProcCache.taskDel s.cache, dead := [] } :=
        h.tail ht rfl (fun hr => absurd hr (hlate rfl)) fun i hi q l hl hq =>
          hmapped i hi q l hl (mem_pkgs_foldl_taskDel.mp hq).1
      exact htail.dels s.dead

/-- Every step keeps the plan, when a scan lists each process once. -/
theorem Planned.step {L : Layout} {s s' : Sys} {a : Action} (h : s.Planned) (hn : s.Covered)
    (hdir : ∀ cfg target dir, a = .scan cfg target dir → DistinctPids dir) (hs : step L s a = some s') :
    s'.Planned := by
  cases step_case hs with
  | kernel hk =>
      obtain ⟨hcache, -, htodo, hprov⟩ := hk.daemon_frame
      refine ⟨?_, ?_, ?_, ?_, ?_⟩
      · rw [htodo, hcache]
        exact h.idle
      · rw [htodo]
        exact h.looks
      · rw [htodo]
        exact h.fresh
      · rw [htodo]
        exact h.agree
      · rw [htodo, hcache, hprov]
        exact h.mapped
  | dispatch ht hq =>
      refine planned_of_plain fun j hj => ?_
      change j ∈ s.todo at hj
      rw [ht] at hj
      exact absurd hj List.not_mem_nil
  | scan ht => exact Planned.scan s (hdir _ _ _ rfl)
  | sync ht => exact planned_of_plain (plain_sync _ _)
  | job ht => exact h.job hn ht

end Sys

end AetherOptExt
