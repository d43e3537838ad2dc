import AetherOptExt.Daemon

/-! # What a correction removes

`affinity_sync` collects the bound threads that `affinity_set` reports as exited and removes
them one by one through `task_del`, which forgets a process when no thread of it is left; at
that moment other exited threads may still be there.  The result is that of removing all of
them at once: the live threads keep their entries, and a process is forgotten exactly when it
had an exited thread and has no live one (`affinitySync_removes_dead`). -/

namespace AetherOptExt

namespace ProcCache

/-- The thread is bound, and `affinity_set` reports it as exited. -/
def Dead (pc : ProcCache) (env : Tid → Env) (topo : CpuTopology) (t : Tid) : Prop :=
  ∃ e, pc.tasks.lookup t = some e ∧ affinitySet (env t) t e.cpus e.cpusetDir topo = true

/-- The two caches have the same entries, perhaps in another order. -/
structure SameEntries (pc pc' : ProcCache) : Prop where
  pkgs : ∀ q, pc.pkgs.lookup q = pc'.pkgs.lookup q
  tasks : ∀ t, pc.tasks.lookup t = pc'.tasks.lookup t

section

variable {pc pc' : ProcCache} {env : Tid → Env} {topo : CpuTopology} {t q : Tid}

theorem mem_deadTids : t ∈ pc.deadTids env topo ↔ pc.Dead env topo t := by
  unfold deadTids Dead
  rw [List.mem_filterMap]
  constructor
  · rintro ⟨⟨u, e⟩, he, h⟩
    split_ifs at h with hd
    obtain rfl := Option.some.inj h
    exact ⟨e, AList.mem_lookup_iff.mpr he, hd⟩
  · rintro ⟨e, he, hd⟩
    exact ⟨⟨t, e⟩, AList.mem_lookup_iff.mp he, if_pos hd⟩

/-- The exited threads are a part of the keys. -/
theorem deadTids_sublist (es : List (Sigma fun _ : Tid => TaskEntry)) :
    (es.filterMap (fun e => if affinitySet (env e.1) e.1 e.2.cpus e.2.cpusetDir topo then some e.1 else none)).Sublist
      es.keys := by
  induction es with
  | nil => exact List.Sublist.refl _
  | cons e es ih =>
      rw [List.filterMap_cons, List.keys_cons]
      split_ifs with h
      · exact ih.cons_cons e.1
      · exact ih.cons e.1

theorem deadTids_nodup : (pc.deadTids env topo).Nodup :=
  List.Nodup.sublist (deadTids_sublist _) (show pc.tasks.entries.keys.Nodup from pc.tasks.nodupKeys)

theorem affinitySync_tasks_lookup :
    (pc.affinitySync env topo).2.tasks.lookup t =
      if t ∈ pc.deadTids env topo then none else pc.tasks.lookup t := by
  show ((pc.deadTids env topo).foldl taskDel pc).tasks.lookup t = _
  rw [foldl_taskDel_tasks, KeyMap.lookup_eraseAll]

/-- After the correction a process has a bound thread when it had one that is not exited. -/
theorem affinitySync_hasTask :
    (pc.affinitySync env topo).2.HasTask q ↔ ∃ t, ¬ pc.Dead env topo t ∧ pc.BoundTo t q := by
  refine exists_congr fun t => ?_
  show ((pc.deadTids env topo).foldl taskDel pc).BoundTo t q ↔ _
  rw [boundTo_foldl_taskDel, mem_deadTids]

theorem mem_pkgs_affinitySync :
    q ∈ (pc.affinitySync env topo).2.pkgs ↔ q ∈ pc.pkgs ∧
      ((∃ t, pc.Dead env topo t ∧ pc.BoundTo t q) → ∃ t, ¬ pc.Dead env topo t ∧ pc.BoundTo t q) := by
  rw [← affinitySync_hasTask]
  simp only [← mem_deadTids]
  exact mem_pkgs_foldl_taskDel

/-- A process that is forgotten had an exited thread and has no live one. -/
theorem affinitySync_pkgs_lookup (h : ¬ ((∃ t, pc.Dead env topo t ∧ pc.BoundTo t q) ∧
      ¬ ∃ t, ¬ pc.Dead env topo t ∧ pc.BoundTo t q)) :
    (pc.affinitySync env topo).2.pkgs.lookup q = pc.pkgs.lookup q := by
  cases hl : pc.pkgs.lookup q with
  | none =>
      cases ho : (pc.affinitySync env topo).2.pkgs.lookup q with
      | none => rfl
      | some p => exact (foldl_taskDel_pkgs_lookup _ pc ho).symm.trans hl
  | some p =>
      have hm : q ∈ (pc.affinitySync env topo).2.pkgs :=
        mem_pkgs_affinitySync.mpr ⟨KeyMap.mem_of_lookup hl, fun hdead => by_contra fun hlive => h ⟨hdead, hlive⟩⟩
      obtain ⟨p', hp'⟩ := KeyMap.mem_iff_lookup.mp hm
      rw [hp']
      exact (foldl_taskDel_pkgs_lookup _ pc hp').symm.trans hl

theorem affinitySync_forgets (hdead : ∃ t, pc.Dead env topo t ∧ pc.BoundTo t q)
    (hlive : ¬ ∃ t, ¬ pc.Dead env topo t ∧ pc.BoundTo t q) :
    (pc.affinitySync env topo).2.pkgs.lookup q = none := by
  rw [AList.lookup_eq_none]
  exact fun hm => hlive ((mem_pkgs_affinitySync.mp hm).2 hdead)

theorem SameEntries.dead_iff (h : pc.SameEntries pc') : pc.Dead env topo t ↔ pc'.Dead env topo t := by
  unfold Dead
  rw [h.tasks]

theorem SameEntries.boundTo_iff (h : pc.SameEntries pc') : pc.BoundTo t q ↔ pc'.BoundTo t q := by
  unfold BoundTo
  rw [h.tasks]

/-- The correction does not depend on the order of the maps. -/
theorem SameEntries.affinitySync (h : pc.SameEntries pc') :
    (pc.affinitySync env topo).1.Perm (pc'.affinitySync env topo).1 ∧
      (pc.affinitySync env topo).2.SameEntries (pc'.affinitySync env topo).2 := by
  have hmem : ∀ t, t ∈ pc.deadTids env topo ↔ t ∈ pc'.deadTids env topo := fun t => by
    rw [mem_deadTids, mem_deadTids, h.dead_iff]
  refine ⟨(List.perm_ext_iff_of_nodup deadTids_nodup deadTids_nodup).mpr hmem, fun q => ?_, fun t => ?_⟩
  · have hgoes : ((∃ t, pc.Dead env topo t ∧ pc.BoundTo t q) ∧ ¬ ∃ t, ¬ pc.Dead env topo t ∧ pc.BoundTo t q) ↔
        ((∃ t, pc'.Dead env topo t ∧ pc'.BoundTo t q) ∧ ¬ ∃ t, ¬ pc'.Dead env topo t ∧ pc'.BoundTo t q) := by
      simp only [h.dead_iff, h.boundTo_iff]
    by_cases hg : (∃ t, pc.Dead env topo t ∧ pc.BoundTo t q) ∧ ¬ ∃ t, ¬ pc.Dead env topo t ∧ pc.BoundTo t q
    · have hg' := hgoes.mp hg
      rw [affinitySync_forgets hg.1 hg.2, affinitySync_forgets hg'.1 hg'.2]
    · rw [affinitySync_pkgs_lookup hg, affinitySync_pkgs_lookup (fun hg' => hg (hgoes.mpr hg')), h.pkgs]
  · rw [affinitySync_tasks_lookup, affinitySync_tasks_lookup, h.tasks]
    exact if_congr (hmem t) rfl rfl

end

/-- **`affinity_sync` removes exactly the exited threads.** -/
theorem affinitySync_removes_dead (pc : ProcCache) (env : Tid → Env) (topo : CpuTopology) :
    ((pc.affinitySync env topo).1.Nodup ∧ ∀ t, t ∈ (pc.affinitySync env topo).1 ↔ pc.Dead env topo t) ∧
    (∀ t, (pc.Dead env topo t → (pc.affinitySync env topo).2.tasks.lookup t = none) ∧
      (¬ pc.Dead env topo t → (pc.affinitySync env topo).2.tasks.lookup t = pc.tasks.lookup t)) ∧
    (∀ q, ((∃ t, pc.Dead env topo t ∧ pc.BoundTo t q) ∧ (¬ ∃ t, ¬ pc.Dead env topo t ∧ pc.BoundTo t q) →
        (pc.affinitySync env topo).2.pkgs.lookup q = none) ∧
      (¬ ((∃ t, pc.Dead env topo t ∧ pc.BoundTo t q) ∧ ¬ ∃ t, ¬ pc.Dead env topo t ∧ pc.BoundTo t q) →
        (pc.affinitySync env topo).2.pkgs.lookup q = pc.pkgs.lookup q)) ∧
    ∀ pc', pc.SameEntries pc' → (pc.affinitySync env topo).1.Perm (pc'.affinitySync env topo).1 ∧
      (pc.affinitySync env topo).2.SameEntries (pc'.affinitySync env topo).2 := by
  refine ⟨⟨deadTids_nodup, fun t => mem_deadTids⟩, fun t => ⟨fun h => ?_, fun h => ?_⟩,
    fun q => ⟨fun h => affinitySync_forgets h.1 h.2, affinitySync_pkgs_lookup⟩, fun pc' h => h.affinitySync⟩
  · rw [affinitySync_tasks_lookup, if_pos (mem_deadTids.mpr h)]
  · rw [affinitySync_tasks_lookup, if_neg fun hm => h (mem_deadTids.mp hm)]

end ProcCache

end AetherOptExt
