import AetherOptExt.CpusetDirs

/-! # The directory of an answer fits its mask

A cpuset directory reaches an answer in three ways: it was created when the file was loaded,
it is created for the union of the matching thread rules, or for the first package-level rule
that has none.  Writing a thread into a directory confines it to the CPUs of the directory's
name.  Rules that come with a directory have that of their own CPUs (`DirsFit`, kept by `load`
and `merge`), and a fallback of several rules has none, so the directory of an answer is always
the printed form of its CPUs. -/

namespace AetherOptExt

open CpuSet

section

variable {mk : DirCall → Bool} {topo : CpuTopology} {cfg : AppConfig} {pkg thread : Str} {r : AffinityResult}

/-- The directory of a rule is that of its CPUs. -/
theorem ruleDir_fits {u : Rule} (hu : u.cpusetDir ≠ [] → u.cpusetDir = (fromRange u.cpus).toRangeString)
    (h : (ruleDir mk topo u).1 ≠ []) : (ruleDir mk topo u).1 = (fromRange u.cpus).toRangeString := by
  have hcpus : CpuSet.new.or (cpusetFromRule u) = fromRange u.cpus := new_or _
  unfold ruleDir at h ⊢
  rw [hcpus] at h ⊢
  by_cases hdir : u.cpusetDir = []
  · simp only [hdir, List.isEmpty_nil, if_true] at h ⊢
    exact ensureCpusetDir_fst h
  · simp only [List.isEmpty_iff, hdir, if_false]
    exact hu hdir

/-- The directory of the fallback is that of the union of the package-level rules. -/
theorem fallbackDir_fits {rules : List Rule} (hd : DirsFit rules) (h : fallbackDir mk topo rules ≠ []) :
    fallbackDir mk topo rules = (unionCpus rules).toRangeString := by
  match rules, hd, h with
  | [], _, h => exact absurd rfl h
  | [u], hd, h =>
      have hunion : unionCpus [u] = fromRange u.cpus := new_or _
      rw [hunion]
      exact ruleDir_fits (hd u List.mem_cons_self) h
  | _ :: _ :: _, _, h => exact absurd rfl h

/-- With rules whose directories fit, so does the directory of every answer. -/
theorem threadAffinity_dir (hd : DirsFit cfg.rules) (hr : threadAffinity mk pkg thread cfg topo = some r)
    (h : r.cpusetDir ≠ []) : r.cpusetDir = r.cpus.toRangeString := by
  rw [threadAffinity_eq] at hr
  by_cases hu : unionCpus (governingRules cfg.rules pkg thread) = CpuSet.new
  · -- every present CPU is handed out without a directory
    rw [if_pos hu] at hr
    split_ifs at hr
    obtain rfl := Option.some.inj hr
    exact absurd rfl h
  · rw [if_neg hu] at hr
    obtain rfl := Option.some.inj hr
    unfold governingRules
    by_cases hT : threadRules cfg.rules pkg thread = []
    · simp only [hT, if_true] at h ⊢
      exact fallbackDir_fits (fun u hu => hd u (List.mem_of_mem_filter hu)) h
    · simp only [hT, if_false] at h ⊢
      exact ensureCpusetDir_fst h

end

/-- **The directory of an answer is the printed form of its CPUs**, and names these CPUs again
when it is parsed. -/
theorem cpuset_dir_fits (parse : Str → Option JsonValue) (mk : ℕ → DirCall → Bool) (topo : CpuTopology)
    (data : Option Str) (mtime : Option ℕ) (cfg : AppConfig) (hload : AppConfig.load parse mk topo data mtime = some cfg)
    (caches : List (Option Str)) (mk' : DirCall → Bool) (topo' : CpuTopology) (pkg thread : Str) (r : AffinityResult)
    (hr : threadAffinity mk' pkg thread (mergeAll parse caches cfg) topo' = some r) (hdir : r.cpusetDir ≠ []) :
    r.cpusetDir = r.cpus.toRangeString ∧ parseCpuRanges r.cpusetDir none = r.cpus := by
  have h := threadAffinity_dir (DirsFit.mergeAll caches (AppConfig.load_dirsFit hload)) hr hdir
  refine ⟨h, ?_⟩
  rw [h]
  exact parse_toRangeString r.cpus

/-- The main thread of a game goes to the directory of its own CPUs. -/
theorem cpuset_dir_fits_game :
    ∃ cfg r, AppConfig.load (parseOf [slashFile]) (fun _ _ => true) cpusetDevice (some slashFile.1) (some 0) = some cfg ∧
      threadAffinity (fun _ => true) "com.neowizgames.game.browndust2".toList "UnityMain".toList
        (mergeAll (parseOf [slashFile]) [none] cfg) cpusetDevice = some r ∧
      r.cpusetDir = "6-7".toList ∧ r.cpusetDir = r.cpus.toRangeString ∧ parseCpuRanges r.cpusetDir none = r.cpus := by
  have hdir : (((AppConfig.load (parseOf [slashFile]) (fun _ _ => true) cpusetDevice (some slashFile.1) (some 0)).bind
      (fun cfg => threadAffinity (fun _ => true) "com.neowizgames.game.browndust2".toList "UnityMain".toList
        (mergeAll (parseOf [slashFile]) [none] cfg) cpusetDevice)).any
      (fun r => decide (r.cpusetDir = "6-7".toList))) = true := by
    decide +kernel
  obtain ⟨r, hr, hp⟩ := (Option.any_eq_true _ _).mp hdir
  obtain ⟨cfg, hcfg, hr⟩ := Option.bind_eq_some_iff.mp hr
  have hname := of_decide_eq_true hp
  refine ⟨cfg, r, hcfg, hr, hname, cpuset_dir_fits _ _ _ _ _ cfg hcfg [none] _ _ _ _ r hr ?_⟩
  rw [hname]
  decide

end AetherOptExt
