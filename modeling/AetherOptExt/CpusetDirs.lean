import AetherOptExt.CpuRanges
import AetherOptExt.EntryPackages

/-! # Which cpuset directories the rules create

Loading a file creates the directory of every entry's `other` set, and a query creates the
directory of the set it hands out: the union of the matching thread rules, or the set of the
first package-level rule when that one has no directory yet.  Merging the cache creates none.
The directory is named by the printed set, so the empty set names the base cpuset itself and
an empty CPU list is written there.

`ruleCalls` collects the calls of one load and one query after any number of merges, and
`ruleCalls_belowBase_iff` says for which inputs all of them stay below the base. -/

namespace AetherOptExt

open CpuSet

/-- The call creates a proper sub-directory of the base cpuset, named by a CPU list, and
writes CPUs to it. -/
def DirCall.StrictSubdir (call : DirCall) : Prop :=
  ∃ name, name ≠ [] ∧ (∀ c ∈ name, c.isDigit = true ∨ c = '-' ∨ c = ',') ∧
    call.path = baseCpuset ++ '/' :: name ∧ call.cpus ≠ []

/-- The call is about the base cpuset itself. -/
def DirCall.HitsBase (call : DirCall) : Prop :=
  call.path = baseCpuset ∨ call.path = baseCpuset ++ ['/']

/-- The call leaves the base cpuset alone. -/
def DirCall.BelowBase (call : DirCall) : Prop := call.StrictSubdir ∧ ¬ call.HitsBase

/-- Merge some cache files, one after the other. -/
def mergeAll (parse : Str → Option JsonValue) (caches : List (Option Str)) (cfg : AppConfig) : AppConfig :=
  caches.foldl (fun cfg data => cfg.mergeCache parse data) cfg

/-- The directory calls made while a file is loaded. -/
def loadCalls (parse : Str → Option JsonValue) (mk : ℕ → DirCall → Bool) (topo : CpuTopology)
    (data : Option Str) : List DirCall :=
  ((loadParse parse mk topo data).map (fun l => l.1.made)).getD []

/-- The directory calls of loading a file and, when that succeeds, of a query after some
cache files were merged. -/
def ruleCalls (parse : Str → Option JsonValue) (mk : ℕ → DirCall → Bool) (topo : CpuTopology)
    (data : Option Str) (mtime : Option ℕ) (caches : List (Option Str)) (mk' : DirCall → Bool)
    (pkg thread : Str) : List DirCall :=
  loadCalls parse mk topo data ++
    ((AppConfig.load parse mk topo data mtime).map
      (fun cfg => (threadAffinityRun mk' pkg thread (mergeAll parse caches cfg) topo).2)).getD []

/-! ### Names of directories -/

theorem mem_toRangeString {s : CpuSet} {c : Char} (h : c ∈ s.toRangeString) :
    c.isDigit = true ∨ c = '-' ∨ c = ',' := by
  obtain ⟨l, hl, -, -⟩ := s.toRangeString_runs
  rw [hl] at h
  clear hl
  induction l using List.reverseRecOn with
  | nil => exact absurd h List.not_mem_nil
  | append_singleton l r ih =>
      rw [printRuns_append_singleton, List.mem_append, List.mem_append] at h
      rcases h with (h | h) | h
      · exact ih h
      · split_ifs at h
        · exact absurd h List.not_mem_nil
        · exact .inr (.inr (List.mem_singleton.mp h))
      · rcases mem_printRun h with h | h
        · exact .inl h
        · exact .inr (.inl h)

/-- The directory of a set lies below the base exactly when the set has a CPU. -/
theorem subdirCall_belowBase_iff {s : CpuSet} {topo : CpuTopology} :
    (subdirCall s.toRangeString topo).BelowBase ↔ s ≠ CpuSet.new := by
  have hcancel : ∀ name : Str, baseCpuset ++ '/' :: s.toRangeString = baseCpuset ++ '/' :: name →
      s.toRangeString = name := by
    intro name h
    exact (List.cons.inj (List.append_cancel_left h)).2
  constructor
  · rintro ⟨⟨name, hne, -, hpath, -⟩, -⟩ hs
    exact hne (by rw [← hcancel name hpath, toRangeString_eq_nil.mpr hs])
  · intro hs
    have hne : s.toRangeString ≠ [] := fun h => hs (toRangeString_eq_nil.mp h)
    refine ⟨⟨s.toRangeString, hne, fun c hc => mem_toRangeString hc, rfl, hne⟩, ?_⟩
    rintro (h | h)
    · exact absurd (List.append_right_eq_self.mp h) (by simp)
    · exact hne (hcancel [] h)

/-! ### The calls of a load -/

section

variable {mk : ℕ → DirCall → Bool} {topo : CpuTopology} {call : DirCall}

theorem mem_loadEntry_made (ht : topo.cpusetEnabled = true) (acc : Loaded) (e : JsonValue) :
    call ∈ (loadEntry mk topo acc e).made ↔ call ∈ acc.made ∨
      (entryPackages e ≠ [] ∧ call = subdirCall (fromRange (entryOther e)).toRangeString topo) := by
  unfold loadEntry
  cases hp : entryPackages e with
  | nil => simp
  | cons first rest => simp [otherCpusetDir, ensureCpusetDir, ht]

theorem mem_foldl_loadEntry_made (ht : topo.cpusetEnabled = true) : ∀ (entries : List JsonValue) (acc : Loaded),
    call ∈ (entries.foldl (loadEntry mk topo) acc).made ↔ call ∈ acc.made ∨
      ∃ e ∈ entries, entryPackages e ≠ [] ∧ call = subdirCall (fromRange (entryOther e)).toRangeString topo
  | [], acc => by simp
  | e :: entries, acc => by
      rw [List.foldl_cons, mem_foldl_loadEntry_made ht entries, mem_loadEntry_made ht, or_assoc,
        List.exists_mem_cons_iff]

/-- The calls of a load stay below the base exactly when every entry's `other` has a CPU. -/
theorem loadCalls_belowBase_iff (parse : Str → Option JsonValue) (ht : topo.cpusetEnabled = true)
    (data : Option Str) :
    (∀ call ∈ loadCalls parse mk topo data, call.BelowBase) ↔
      ∀ root entries ebpf, data.bind parse = some root → loadRoot root = some (entries, ebpf) →
        ∀ e ∈ entries, entryPackages e ≠ [] → fromRange (entryOther e) ≠ CpuSet.new := by
  have hparse : loadParse parse mk topo data = (data.bind parse).bind (fun root =>
      (loadRoot root).map (fun er => (er.1.foldl (loadEntry mk topo) ⟨[], KeySet.empty, [], []⟩, er.2))) := by
    unfold loadParse
    cases data with
    | none => rfl
    | some text =>
        show (parse text).bind _ = (parse text).bind _
        congr 1
        funext root
        cases loadRoot root <;> rfl
  unfold loadCalls
  rw [hparse]
  cases hroot : data.bind parse with
  | none => simp
  | some root =>
      cases hentries : loadRoot root with
      | none =>
          refine iff_of_true (by simp [hentries]) fun root' entries ebpf hr he => ?_
          obtain rfl := Option.some.inj hr
          rw [hentries] at he
          cases he
      | some er =>
          obtain ⟨entries, ebpf⟩ := er
          simp only [Option.bind_some, hentries, Option.map_some, Option.getD_some]
          constructor
          · intro h root' entries' ebpf' hr he e hmem hp
            obtain rfl := Option.some.inj hr
            rw [hentries] at he
            obtain ⟨rfl, rfl⟩ := Prod.mk.inj (Option.some.inj he)
            exact subdirCall_belowBase_iff.mp (h _ ((mem_foldl_loadEntry_made ht entries _).mpr
              (.inr ⟨e, hmem, hp, rfl⟩)))
          · intro h call hcall
            rcases (mem_foldl_loadEntry_made ht entries _).mp hcall with hcall | ⟨e, hmem, hp, rfl⟩
            · exact absurd hcall List.not_mem_nil
            · exact subdirCall_belowBase_iff.mpr (h root entries ebpf rfl hentries e hmem hp)

end

/-! ### The calls of a query -/

section

variable {mk : DirCall → Bool} {topo : CpuTopology} {pkg thread : Str}

theorem ruleDir_made (ht : topo.cpusetEnabled = true) (r : Rule) :
    (ruleDir mk topo r).2 =
      if r.cpusetDir = [] then [subdirCall (fromRange r.cpus).toRangeString topo] else [] := by
  unfold ruleDir ensureCpusetDir
  by_cases hd : r.cpusetDir = []
  · simp [hd, ht, new_or, cpusetFromRule]
  · simp [hd]

/-- The directory calls of a query. -/
theorem threadAffinityRun_made (ht : topo.cpusetEnabled = true) (cfg : AppConfig) :
    (threadAffinityRun mk pkg thread cfg topo).2 =
      if threadRules cfg.rules pkg thread = [] then
        match (packageRules cfg.rules pkg).head? with
        | none => []
        | some r => if r.cpusetDir = [] then [subdirCall (fromRange r.cpus).toRangeString topo] else []
      else [subdirCall (unionCpus (threadRules cfg.rules pkg thread)).toRangeString topo] := by
  have hm := threadLoop_eq cfg.rules pkg thread
  unfold threadAffinityRun
  simp only [hm]
  by_cases hT : threadRules cfg.rules pkg thread = []
  · have hmade := (foldl_fallbackStep_dir mk topo pkg cfg.rules).2
    have hhead : ((packageRules cfg.rules pkg).head?.map (fun r => (ruleDir mk topo r).2)).getD [] =
        match (packageRules cfg.rules pkg).head? with
        | none => []
        | some r => if r.cpusetDir = [] then [subdirCall (fromRange r.cpus).toRangeString topo] else [] := by
      cases (packageRules cfg.rules pkg).head? with
      | none => rfl
      | some r => exact ruleDir_made ht r
    rw [if_pos hT, ← hhead, ← hmade]
    simp only [hT, bne_self_eq_false, Bool.false_eq_true, if_false, unionCpus_nil]
    split_ifs <;> rfl
  · have hb : (threadRules cfg.rules pkg thread != []) = true := by simpa using hT
    rw [if_neg hT]
    simp only [hb, if_true, ensureCpusetDir, ht, Bool.not_true, Bool.false_eq_true, if_false]
    split_ifs <;> rfl

/-- The rules a query asks first denote a CPU: one of the matching thread rules, or the first
package-level rule when none matches. -/
def QueryDenotes (cfg : AppConfig) (pkg thread : Str) : Prop :=
  if threadRules cfg.rules pkg thread = [] then
    ∀ r ∈ (packageRules cfg.rules pkg).head?, fromRange r.cpus ≠ CpuSet.new
  else ∃ r ∈ threadRules cfg.rules pkg thread, fromRange r.cpus ≠ CpuSet.new

/-- Rules that come with a directory denote a CPU. -/
def DirsDenote (rules : List Rule) : Prop :=
  ∀ r ∈ rules, r.cpusetDir ≠ [] → fromRange r.cpus ≠ CpuSet.new

theorem queryCalls_belowBase_iff (ht : topo.cpusetEnabled = true) {cfg : AppConfig}
    (hd : DirsDenote cfg.rules) :
    (∀ call ∈ (threadAffinityRun mk pkg thread cfg topo).2, call.BelowBase) ↔ QueryDenotes cfg pkg thread := by
  unfold QueryDenotes
  rw [threadAffinityRun_made ht]
  by_cases hT : threadRules cfg.rules pkg thread = []
  · rw [if_pos hT, if_pos hT]
    cases hh : (packageRules cfg.rules pkg).head? with
    | none => simp
    | some r =>
        have hmem : r ∈ cfg.rules := List.mem_of_mem_filter (List.mem_of_mem_head? hh)
        simp only [Option.mem_some_iff, forall_eq']
        by_cases hdir : r.cpusetDir = []
        · simp only [hdir, if_true, List.mem_singleton, forall_eq]
          exact subdirCall_belowBase_iff
        · simp only [hdir, if_false, List.not_mem_nil, false_imp_iff, implies_true, true_iff]
          exact hd r hmem hdir
  · rw [if_neg hT, if_neg hT]
    simp only [List.mem_singleton, forall_eq]
    rw [subdirCall_belowBase_iff, ne_eq, unionCpus_eq_new]
    push Not
    rfl

end

/-! ### Rules that come with a directory -/

/-- Rules that come with a directory have that of their CPUs. -/
def DirsFit (rules : List Rule) : Prop :=
  ∀ r ∈ rules, r.cpusetDir ≠ [] → r.cpusetDir = (fromRange r.cpus).toRangeString

theorem DirsFit.denote {rules : List Rule} (h : DirsFit rules) : DirsDenote rules :=
  fun r hr hdir hn => hdir ((h r hr hdir).trans (toRangeString_eq_nil.mpr hn))

/-- A directory is named by the CPUs it is created for. -/
theorem ensureCpusetDir_fst {mk : DirCall → Bool} {cpus : CpuSet} {topo : CpuTopology}
    (h : (ensureCpusetDir mk cpus topo).1 ≠ []) : (ensureCpusetDir mk cpus topo).1 = cpus.toRangeString := by
  cases he : topo.cpusetEnabled with
  | false => simp [ensureCpusetDir, he] at h
  | true =>
      cases hm : mk (subdirCall cpus.toRangeString topo) with
      | false => simp [ensureCpusetDir, he, hm] at h
      | true => simp [ensureCpusetDir, he, hm]

theorem DirsFit.loadEntry {mk : ℕ → DirCall → Bool} {topo : CpuTopology} {acc : Loaded}
    (h : DirsFit acc.rules) (e : JsonValue) : DirsFit (loadEntry mk topo acc e).rules := by
  unfold AetherOptExt.loadEntry
  cases hp : entryPackages e with
  | nil => exact h
  | cons first rest =>
      intro r hr hdir
      rcases List.mem_append.mp hr with hr | hr
      · exact h r hr hdir
      · rcases List.mem_cons.mp hr with rfl | hr
        · exact ensureCpusetDir_fst hdir
        · obtain ⟨cn, -, rfl⟩ := List.mem_map.mp hr
          exact absurd rfl hdir

theorem DirsFit.foldl_loadEntry {mk : ℕ → DirCall → Bool} {topo : CpuTopology} :
    ∀ (entries : List JsonValue) {acc : Loaded}, DirsFit acc.rules →
      DirsFit (entries.foldl (AetherOptExt.loadEntry mk topo) acc).rules
  | [], _, h => h
  | e :: entries, _, h => DirsFit.foldl_loadEntry entries (h.loadEntry e)

theorem DirsFit.foldl_mergeEntry : ∀ (entries : List JsonValue) {acc : cache.Merged},
    DirsFit acc.rules → DirsFit (entries.foldl cache.mergeEntry acc).rules
  | [], _, h => h
  | e :: entries, acc, h => by
      suffices hstep : DirsFit (cache.mergeEntry acc e).rules from DirsFit.foldl_mergeEntry entries hstep
      unfold cache.mergeEntry
      cases hp : entryPackages e with
      | nil => exact h
      | cons first rest =>
          dsimp only
          split_ifs
          · exact h
          · intro r hr hdir
            rcases List.mem_append.mp hr with hr | hr
            · exact h r hr hdir
            · rcases List.mem_cons.mp hr with rfl | hr
              · exact absurd rfl hdir
              · obtain ⟨cn, -, rfl⟩ := List.mem_map.mp hr
                exact absurd rfl hdir

theorem DirsFit.mergeAll {parse : Str → Option JsonValue} : ∀ (caches : List (Option Str)) {cfg : AppConfig},
    DirsFit cfg.rules → DirsFit (mergeAll parse caches cfg).rules
  | [], _, h => h
  | data :: caches, cfg, h => by
      suffices hstep : DirsFit (cfg.mergeCache parse data).rules from DirsFit.mergeAll caches hstep
      unfold AppConfig.mergeCache cache.merge
      cases data.bind parse with
      | none => exact h
      | some root =>
          dsimp only
          split_ifs
          · exact DirsFit.foldl_mergeEntry root.members h
          · exact h

theorem AppConfig.load_dirsFit {parse : Str → Option JsonValue} {mk : ℕ → DirCall → Bool} {topo : CpuTopology}
    {data : Option Str} {mtime : Option ℕ} {cfg : AppConfig}
    (h : AppConfig.load parse mk topo data mtime = some cfg) : DirsFit cfg.rules := by
  simp only [AppConfig.load, loadParse, Option.bind_eq_bind, Option.pure_def, Option.bind_eq_some_iff,
    Option.some.injEq] at h
  obtain ⟨l, ⟨-, -, -, -, er, -, rfl⟩, -, -, rfl⟩ := h
  have hempty : DirsFit (⟨[], KeySet.empty, [], []⟩ : Loaded).rules := fun r hr => absurd hr List.not_mem_nil
  exact DirsFit.foldl_loadEntry er.1 hempty

/-! ### Loading and matching -/

/-- The file and the rules asked by the query denote CPUs: every entry's `other`, and what
`QueryDenotes` names. -/
def RulesDenote (parse : Str → Option JsonValue) (mk : ℕ → DirCall → Bool) (topo : CpuTopology)
    (data : Option Str) (mtime : Option ℕ) (caches : List (Option Str)) (pkg thread : Str) : Prop :=
  (∀ root entries ebpf, data.bind parse = some root → loadRoot root = some (entries, ebpf) →
    ∀ e ∈ entries, entryPackages e ≠ [] → fromRange (entryOther e) ≠ CpuSet.new) ∧
  ∀ cfg, AppConfig.load parse mk topo data mtime = some cfg →
    QueryDenotes (mergeAll parse caches cfg) pkg thread

/-- **Which inputs leave the base cpuset alone.** -/
theorem ruleCalls_belowBase_iff (parse : Str → Option JsonValue) (mk : ℕ → DirCall → Bool) (topo : CpuTopology)
    (ht : topo.cpusetEnabled = true) (data : Option Str) (mtime : Option ℕ) (caches : List (Option Str))
    (mk' : DirCall → Bool) (pkg thread : Str) :
    (∀ call ∈ ruleCalls parse mk topo data mtime caches mk' pkg thread, call.BelowBase) ↔
      RulesDenote parse mk topo data mtime caches pkg thread := by
  unfold ruleCalls RulesDenote
  rw [← @loadCalls_belowBase_iff mk topo parse ht data]
  simp only [List.mem_append, or_imp, forall_and]
  apply and_congr_right'
  cases hload : AppConfig.load parse mk topo data mtime with
  | none => simp
  | some cfg =>
      simp only [Option.map_some, Option.getD_some, Option.some.injEq, forall_eq']
      exact queryCalls_belowBase_iff ht (DirsFit.mergeAll caches (AppConfig.load_dirsFit hload)).denote

/-- A device with cpusets. -/
def cpusetDevice : CpuTopology := { eightCpus with cpusetEnabled := true }

/-- An entry whose `comm` has the key `0/5`, which denotes no CPU. -/
def slashEntry : JsonValue :=
  .object [("packages".toList, .array [.string "com.neowizgames.game.browndust2".toList]),
    ("cpuset".toList, .object [("other".toList, .string "0-6".toList),
      ("comm".toList, .object [
        ("6-7".toList, .array [.string "UnityMain".toList, .string "UnityGfxDeviceW".toList]),
        ("0/5".toList, .array [.string "Job*".toList])])])]

/-- A file with that entry. -/
def slashFile : Str × JsonValue :=
  (("\x7b\"rules\":[\x7b\"packages\":[\"com.neowizgames.game.browndust2\"],\"cpuset\":\x7b\"other\":\"0-6\"," ++
      "\"comm\":\x7b\"6-7\":[\"UnityMain\",\"UnityGfxDeviceW\"],\"0/5\":[\"Job*\"]\x7d\x7d\x7d]\x7d").toList,
    oneEntryFile slashEntry)

/-- A thread that only the key `0/5` matches empties the CPU list of the base cpuset. -/
theorem base_cpuset_overwritten :
    (⟨"/dev/cpuset/AppOpt/".toList, [], ['0']⟩ : DirCall) ∈
        ruleCalls (parseOf [slashFile]) (fun _ _ => true) cpusetDevice (some slashFile.1) (some 0) []
          (fun _ => true) "com.neowizgames.game.browndust2".toList "Job.Worker 1".toList ∧
      ¬ ∀ call ∈ ruleCalls (parseOf [slashFile]) (fun _ _ => true) cpusetDevice (some slashFile.1) (some 0) []
          (fun _ => true) "com.neowizgames.game.browndust2".toList "Job.Worker 1".toList, call.BelowBase := by
  have hmem : (⟨"/dev/cpuset/AppOpt/".toList, [], ['0']⟩ : DirCall) ∈
      ruleCalls (parseOf [slashFile]) (fun _ _ => true) cpusetDevice (some slashFile.1) (some 0) []
        (fun _ => true) "com.neowizgames.game.browndust2".toList "Job.Worker 1".toList := by
    decide +kernel
  refine ⟨hmem, fun h => (h _ hmem).2 (.inr ?_)⟩
  decide

theorem ruleCalls_belowBase_iff_slash :
    (∀ call ∈ ruleCalls (parseOf [slashFile]) (fun _ _ => true) cpusetDevice (some slashFile.1) (some 0) []
        (fun _ => true) "com.neowizgames.game.browndust2".toList "UnityMain".toList, call.BelowBase) ↔
      RulesDenote (parseOf [slashFile]) (fun _ _ => true) cpusetDevice (some slashFile.1) (some 0) []
        "com.neowizgames.game.browndust2".toList "UnityMain".toList :=
  ruleCalls_belowBase_iff _ _ cpusetDevice rfl _ _ _ _ _ _

end AetherOptExt
