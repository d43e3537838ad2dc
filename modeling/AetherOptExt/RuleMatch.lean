import AetherOptExt.Config

/-! # Matching a thread against the rules (`rule_match.rs`)

`threadAffinity` unions the CPU sets of the thread rules that match a thread name, falls back
to the package-level rules when none does, and answers with every present CPU when the result
is empty but some thread rule's package pattern covers the package.  The two loops carry their
flags as in the source; `threadAffinityRun` also returns the directory calls made.

What the function decides is stated without loops: `threadRules` and `packageRules` are the
rules that can speak, `governingRules` those that do, `unionCpus` the CPUs a list of rules
denotes, and `binding` the answer.  `threadAffinity_binding` identifies the two, and everything
later is derived from it. -/

namespace AetherOptExt

/-- The result of matching. -/
structure AffinityResult where
  cpus : CpuSet
  cpusetDir : Str
  isThreadRule : Bool
deriving DecidableEq

/-- `cpuset_from_rule`. -/
def cpusetFromRule (rule : Rule) : CpuSet := fromRange rule.cpus

/-- One iteration of the loop over thread rules: the CPUs so far and the flag `matched`. -/
def threadStep (pkg thread : Str) (acc : CpuSet × Bool) (rule : Rule) : CpuSet × Bool :=
  if rule.pkg != pkg || rule.thread.isEmpty then acc
  else if fnmatch rule.thread thread then (acc.1.or (cpusetFromRule rule), true)
  else acc

/-- The state of the loop over package-level rules. -/
structure FallbackAcc where
  cpus : CpuSet
  cpusetDir : Str
  fallbackSeen : Bool
  made : List DirCall

/-- One iteration of the loop over package-level rules: the first sets the directory, a
later one clears it. -/
def fallbackStep (mk : DirCall → Bool) (topo : CpuTopology) (pkg : Str) (acc : FallbackAcc)
    (rule : Rule) : FallbackAcc :=
  if rule.pkg != pkg || !rule.thread.isEmpty then acc
  else
    let cpus := acc.cpus.or (cpusetFromRule rule)
    if !acc.fallbackSeen then
      let dir := if rule.cpusetDir.isEmpty then ensureCpusetDir mk cpus topo else (rule.cpusetDir, [])
      ⟨cpus, dir.1, true, acc.made ++ dir.2⟩
    else { acc with cpus := cpus, cpusetDir := [] }

/-- `thread_affinity` with the directory calls it makes. -/
def threadAffinityRun (mk : DirCall → Bool) (pkg thread : Str) (cfg : AppConfig) (topo : CpuTopology) :
    Option AffinityResult × List DirCall :=
  let m := if thread.isEmpty then (CpuSet.new, false)
    else cfg.rules.foldl (threadStep pkg thread) (CpuSet.new, false)
  -- the directory is recomputed from the union, so that it fits the mask
  let dir := if m.2 then ensureCpusetDir mk m.1 topo else ([], [])
  let f : FallbackAcc := if m.2 then ⟨m.1, dir.1, false, dir.2⟩
    else cfg.rules.foldl (fallbackStep mk topo pkg) ⟨m.1, [], false, []⟩
  if f.cpus.count = 0 then
    if cfg.pkgHasThreadRules pkg then (some ⟨topo.presentCpus, [], false⟩, f.made) else (none, f.made)
  else (some ⟨f.cpus, f.cpusetDir, m.2⟩, f.made)

/-- `thread_affinity`. -/
def threadAffinity (mk : DirCall → Bool) (pkg thread : Str) (cfg : AppConfig) (topo : CpuTopology) :
    Option AffinityResult :=
  (threadAffinityRun mk pkg thread cfg topo).1

/-! ### What the loops compute -/

/-- The thread rules of `pkg` that match `thread`. -/
def threadRules (rules : List Rule) (pkg thread : Str) : List Rule :=
  rules.filter (fun r => r.pkg == pkg && !r.thread.isEmpty && !thread.isEmpty && fnmatch r.thread thread)

/-- The package-level rules of `pkg`. -/
def packageRules (rules : List Rule) (pkg : Str) : List Rule :=
  rules.filter (fun r => r.pkg == pkg && r.thread.isEmpty)

/-- The rules that decide: the matching thread rules, else the package-level ones. -/
def governingRules (rules : List Rule) (pkg thread : Str) : List Rule :=
  if threadRules rules pkg thread = [] then packageRules rules pkg else threadRules rules pkg thread

/-- The CPUs a list of rules denotes. -/
def unionCpus (rules : List Rule) : CpuSet :=
  rules.foldl (fun s r => s.or (cpusetFromRule r)) CpuSet.new

/-- The CPU set and the flag of a result. -/
def AffinityResult.binding (r : AffinityResult) : CpuSet × Bool := (r.cpus, r.isThreadRule)

/-- The answer of `thread_affinity` without its directory. -/
def binding (cfg : AppConfig) (topo : CpuTopology) (pkg thread : Str) : Option (CpuSet × Bool) :=
  let cpus := unionCpus (governingRules cfg.rules pkg thread)
  if cpus = CpuSet.new then
    if cfg.pkgHasThreadRules pkg then some (topo.presentCpus, false) else none
  else some (cpus, threadRules cfg.rules pkg thread != [])

theorem isSet_foldl_or (i : ℕ) : ∀ (rules : List Rule) (s : CpuSet),
    (rules.foldl (fun s r => s.or (cpusetFromRule r)) s).isSet i =
      (s.isSet i || rules.any (fun r => (cpusetFromRule r).isSet i))
  | [], s => by simp
  | r :: rules, s => by
      rw [List.foldl_cons, isSet_foldl_or i rules, CpuSet.isSet_or, List.any_cons, Bool.or_assoc]

/-- A CPU is in the union exactly when one of the rules has it. -/
theorem isSet_unionCpus {rules : List Rule} {i : ℕ} :
    (unionCpus rules).isSet i = true ↔ ∃ r ∈ rules, (fromRange r.cpus).isSet i = true := by
  unfold unionCpus
  rw [isSet_foldl_or, CpuSet.isSet_new, Bool.false_or, List.any_eq_true]
  rfl

@[simp] theorem unionCpus_nil : unionCpus [] = CpuSet.new := rfl

theorem unionCpus_eq_new {rules : List Rule} :
    unionCpus rules = CpuSet.new ↔ ∀ r ∈ rules, fromRange r.cpus = CpuSet.new := by
  constructor
  · intro h r hr
    by_contra hne
    obtain ⟨i, hi⟩ := CpuSet.ne_new_iff.mp hne
    have := isSet_unionCpus.mpr ⟨r, hr, hi⟩
    rw [h, CpuSet.isSet_new] at this
    cases this
  · intro h
    by_contra hne
    obtain ⟨i, hi⟩ := CpuSet.ne_new_iff.mp hne
    obtain ⟨r, hr, hri⟩ := isSet_unionCpus.mp hi
    rw [h r hr, CpuSet.isSet_new] at hri
    cases hri

/-- A rule that denotes a CPU makes the union of its list non-empty. -/
theorem unionCpus_ne_new {rules : List Rule} {r : Rule} (hr : r ∈ rules)
    (hne : fromRange r.cpus ≠ CpuSet.new) : unionCpus rules ≠ CpuSet.new :=
  fun h => hne (unionCpus_eq_new.mp h r hr)

/-- A rule that has the CPUs of all others denotes the union. -/
theorem unionCpus_eq_iff {rules : List Rule} {r : Rule} (hr : r ∈ rules) :
    unionCpus rules = fromRange r.cpus ↔ ∀ u ∈ rules, fromRange u.cpus ⊆ fromRange r.cpus := by
  constructor
  · intro h u hu i hi
    rw [← h]
    exact isSet_unionCpus.mpr ⟨u, hu, hi⟩
  · intro h
    apply CpuSet.ext_isSet
    intro i _
    rw [Bool.eq_iff_iff, isSet_unionCpus]
    exact ⟨fun ⟨u, hu, hi⟩ => h u hu i hi, fun hi => ⟨r, hr, hi⟩⟩

/-- The union depends on the members of the list only. -/
theorem unionCpus_congr {rules rules' : List Rule} (h : ∀ r, r ∈ rules ↔ r ∈ rules') :
    unionCpus rules = unionCpus rules' := by
  apply CpuSet.ext_isSet
  intro i _
  apply Bool.eq_iff_iff.mpr
  rw [isSet_unionCpus, isSet_unionCpus]
  simp only [h]

theorem foldl_threadStep (pkg thread : Str) (hne : thread ≠ []) :
    ∀ (rules : List Rule) (s : CpuSet) (b : Bool),
      rules.foldl (threadStep pkg thread) (s, b) =
        ((threadRules rules pkg thread).foldl (fun s r => s.or (cpusetFromRule r)) s,
          b || threadRules rules pkg thread != [])
  | [], s, b => by simp [threadRules]
  | r :: rules, s, b => by
      have hth : thread.isEmpty = false := by simpa using hne
      rw [List.foldl_cons]
      by_cases hr : (r.pkg == pkg && !r.thread.isEmpty && !thread.isEmpty && fnmatch r.thread thread) = true
      · have hlist : threadRules (r :: rules) pkg thread = r :: threadRules rules pkg thread := by
          simp [threadRules, hr]
        have hstep : threadStep pkg thread (s, b) r = (s.or (cpusetFromRule r), true) := by
          simp only [Bool.and_eq_true, Bool.not_eq_true', beq_iff_eq] at hr
          simp [threadStep, hr.1.1.1, hr.1.1.2, hr.2]
        rw [hstep, foldl_threadStep pkg thread hne rules, hlist]
        simp
      · have hlist : threadRules (r :: rules) pkg thread = threadRules rules pkg thread := by
          simp [threadRules, hr]
        have hstep : threadStep pkg thread (s, b) r = (s, b) := by
          unfold threadStep
          split_ifs with h₁ h₂
          · rfl
          · exfalso
            simp only [Bool.or_eq_true, bne_iff_ne, ne_eq, not_or, not_not, Bool.not_eq_true] at h₁
            exact hr (by simp [h₁.1, h₁.2, hth, h₂])
          · rfl
        rw [hstep, foldl_threadStep pkg thread hne rules, hlist]

theorem fallbackStep_skip (mk : DirCall → Bool) (topo : CpuTopology) {pkg : Str} {r : Rule}
    (h : ¬ (r.pkg == pkg && r.thread.isEmpty) = true) (acc : FallbackAcc) :
    fallbackStep mk topo pkg acc r = acc := by
  unfold fallbackStep
  rw [if_pos]
  simp only [Bool.and_eq_true, beq_iff_eq, not_and, Bool.not_eq_true] at h
  by_cases hp : r.pkg = pkg
  · simp [h hp]
  · simp [hp]

theorem foldl_fallbackStep_cpus (mk : DirCall → Bool) (topo : CpuTopology) (pkg : Str) :
    ∀ (rules : List Rule) (acc : FallbackAcc),
      (rules.foldl (fallbackStep mk topo pkg) acc).cpus =
        (packageRules rules pkg).foldl (fun s r => s.or (cpusetFromRule r)) acc.cpus
  | [], acc => rfl
  | r :: rules, acc => by
      rw [List.foldl_cons, foldl_fallbackStep_cpus mk topo pkg rules]
      by_cases hr : (r.pkg == pkg && r.thread.isEmpty) = true
      · have hlist : packageRules (r :: rules) pkg = r :: packageRules rules pkg := by
          simp [packageRules, hr]
        have hstep : (fallbackStep mk topo pkg acc r).cpus = acc.cpus.or (cpusetFromRule r) := by
          simp only [Bool.and_eq_true, beq_iff_eq] at hr
          unfold fallbackStep
          rw [if_neg (by simp [hr.1, hr.2])]
          dsimp only
          split_ifs <;> rfl
        rw [hlist, hstep, List.foldl_cons]
      · have hlist : packageRules (r :: rules) pkg = packageRules rules pkg := by
          simp [packageRules, hr]
        rw [hlist, fallbackStep_skip mk topo hr]

/-- The loop over package-level rules passes over all other rules. -/
theorem foldl_fallbackStep_filter (mk : DirCall → Bool) (topo : CpuTopology) (pkg : Str) :
    ∀ (rules : List Rule) (acc : FallbackAcc),
      rules.foldl (fallbackStep mk topo pkg) acc = (packageRules rules pkg).foldl (fallbackStep mk topo pkg) acc
  | [], _ => rfl
  | r :: rules, acc => by
      rw [List.foldl_cons, foldl_fallbackStep_filter mk topo pkg rules]
      by_cases hr : (r.pkg == pkg && r.thread.isEmpty) = true
      · have hlist : packageRules (r :: rules) pkg = r :: packageRules rules pkg := by
          simp [packageRules, hr]
        rw [hlist, List.foldl_cons]
      · have hlist : packageRules (r :: rules) pkg = packageRules rules pkg := by
          simp [packageRules, hr]
        rw [hlist, fallbackStep_skip mk topo hr]

/-- A later package-level rule clears the directory. -/
theorem foldl_fallbackStep_later (mk : DirCall → Bool) (topo : CpuTopology) (pkg : Str) :
    ∀ (rules : List Rule) (acc : FallbackAcc), (∀ r ∈ rules, r.pkg = pkg ∧ r.thread = []) →
      acc.fallbackSeen = true →
      (rules.foldl (fallbackStep mk topo pkg) acc).cpusetDir = (if rules = [] then acc.cpusetDir else []) ∧
        (rules.foldl (fallbackStep mk topo pkg) acc).made = acc.made
  | [], acc, _, _ => ⟨rfl, rfl⟩
  | r :: rules, acc, h, hseen => by
      have hr := h r List.mem_cons_self
      have hstep : fallbackStep mk topo pkg acc r =
          { acc with cpus := acc.cpus.or (cpusetFromRule r), cpusetDir := [] } := by
        unfold fallbackStep
        simp [hr.1, hr.2, hseen]
      obtain ⟨hdir, hmade⟩ := foldl_fallbackStep_later mk topo pkg rules
        { acc with cpus := acc.cpus.or (cpusetFromRule r), cpusetDir := [] }
        (fun u hu => h u (List.mem_cons_of_mem r hu)) hseen
      rw [List.foldl_cons, hstep, hdir, hmade]
      simp

/-- The directory of a package-level rule that has none is created. -/
def ruleDir (mk : DirCall → Bool) (topo : CpuTopology) (r : Rule) : Str × List DirCall :=
  if r.cpusetDir.isEmpty then ensureCpusetDir mk (CpuSet.new.or (cpusetFromRule r)) topo else (r.cpusetDir, [])

/-- The directory of the fallback is that of the package-level rule, when there is only one. -/
def fallbackDir (mk : DirCall → Bool) (topo : CpuTopology) : List Rule → Str
  | [r] => (ruleDir mk topo r).1
  | _ => []

theorem mem_packageRules {rules : List Rule} {pkg : Str} {r : Rule} :
    r ∈ packageRules rules pkg ↔ r ∈ rules ∧ r.pkg = pkg ∧ r.thread = [] := by
  simp [packageRules]

/-- What the loop over package-level rules leaves in the directory, and the calls it makes. -/
theorem foldl_fallbackStep_dir (mk : DirCall → Bool) (topo : CpuTopology) (pkg : Str) (rules : List Rule) :
    (rules.foldl (fallbackStep mk topo pkg) ⟨CpuSet.new, [], false, []⟩).cpusetDir =
        fallbackDir mk topo (packageRules rules pkg) ∧
      (rules.foldl (fallbackStep mk topo pkg) ⟨CpuSet.new, [], false, []⟩).made =
        ((packageRules rules pkg).head?.map (fun r => (ruleDir mk topo r).2)).getD [] := by
  rw [foldl_fallbackStep_filter]
  have hmem : ∀ r ∈ packageRules rules pkg, r.pkg = pkg ∧ r.thread = [] := fun r hr => (mem_packageRules.mp hr).2
  cases hP : packageRules rules pkg with
  | nil => exact ⟨rfl, rfl⟩
  | cons r rest =>
      rw [hP] at hmem
      have hr := hmem r List.mem_cons_self
      have hstep : fallbackStep mk topo pkg ⟨CpuSet.new, [], false, []⟩ r =
          ⟨CpuSet.new.or (cpusetFromRule r), (ruleDir mk topo r).1, true, (ruleDir mk topo r).2⟩ := by
        unfold fallbackStep ruleDir
        simp [hr.1, hr.2]
      obtain ⟨hdir, hmade⟩ := foldl_fallbackStep_later mk topo pkg rest
        ⟨CpuSet.new.or (cpusetFromRule r), (ruleDir mk topo r).1, true, (ruleDir mk topo r).2⟩
        (fun u hu => hmem u (List.mem_cons_of_mem r hu)) rfl
      rw [List.foldl_cons, hstep, hdir, hmade]
      refine ⟨?_, rfl⟩
      cases rest with
      | nil => rfl
      | cons _ _ => rfl

theorem threadRules_nil (rules : List Rule) (pkg : Str) : threadRules rules pkg [] = [] := by
  simp [threadRules]

/-- The loop over thread rules yields the union of those that match, and whether any does. -/
theorem threadLoop_eq (rules : List Rule) (pkg thread : Str) :
    (if thread.isEmpty then (CpuSet.new, false) else rules.foldl (threadStep pkg thread) (CpuSet.new, false)) =
      (unionCpus (threadRules rules pkg thread), threadRules rules pkg thread != []) := by
  by_cases hth : thread = []
  · subst hth
    simp [threadRules_nil]
  · rw [if_neg (by simpa using hth), foldl_threadStep pkg thread hth, Bool.false_or]
    rfl

/-- `thread_affinity` with its directory. -/
theorem threadAffinity_eq (mk : DirCall → Bool) (pkg thread : Str) (cfg : AppConfig) (topo : CpuTopology) :
    threadAffinity mk pkg thread cfg topo =
      if unionCpus (governingRules cfg.rules pkg thread) = CpuSet.new then
        if cfg.pkgHasThreadRules pkg then some ⟨topo.presentCpus, [], false⟩ else none
      else some ⟨unionCpus (governingRules cfg.rules pkg thread),
        if threadRules cfg.rules pkg thread = [] then fallbackDir mk topo (packageRules cfg.rules pkg)
        else (ensureCpusetDir mk (unionCpus (threadRules cfg.rules pkg thread)) topo).1,
        threadRules cfg.rules pkg thread != []⟩ := by
  have hm := threadLoop_eq cfg.rules pkg thread
  unfold threadAffinity threadAffinityRun governingRules
  simp only [hm]
  by_cases hT : threadRules cfg.rules pkg thread = []
  · have hfc := foldl_fallbackStep_cpus mk topo pkg cfg.rules ⟨CpuSet.new, [], false, []⟩
    change _ = unionCpus (packageRules cfg.rules pkg) at hfc
    simp only [hT, bne_self_eq_false, Bool.false_eq_true, if_false, if_true, unionCpus_nil, hfc,
      CpuSet.count_eq_zero, (foldl_fallbackStep_dir mk topo pkg cfg.rules).1]
    split_ifs <;> rfl
  · have hb : (threadRules cfg.rules pkg thread != []) = true := by simpa using hT
    simp only [hT, hb, if_true, if_false, CpuSet.count_eq_zero]
    split_ifs <;> rfl

/-- The CPUs of the answer, when the rules that decide denote one. -/
theorem threadAffinity_cpus {mk : DirCall → Bool} {pkg thread : Str} {cfg : AppConfig} {topo : CpuTopology}
    (h : unionCpus (governingRules cfg.rules pkg thread) ≠ CpuSet.new) :
    (threadAffinity mk pkg thread cfg topo).map AffinityResult.cpus =
      some (unionCpus (governingRules cfg.rules pkg thread)) := by
  rw [threadAffinity_eq, if_neg h]
  rfl

/-- **`thread_affinity` is the order-free `binding`**, up to the directory it names. -/
theorem threadAffinity_binding (mk : DirCall → Bool) (pkg thread : Str) (cfg : AppConfig)
    (topo : CpuTopology) :
    (threadAffinity mk pkg thread cfg topo).map AffinityResult.binding = binding cfg topo pkg thread := by
  rw [threadAffinity_eq]
  unfold binding
  dsimp only
  split_ifs <;> rfl

/-! ### Consequences -/

variable {mk : DirCall → Bool} {cfg : AppConfig} {topo : CpuTopology} {pkg thread : Str}

theorem binding_of_threadAffinity {r : AffinityResult} (h : threadAffinity mk pkg thread cfg topo = some r) :
    binding cfg topo pkg thread = some r.binding := by
  rw [← threadAffinity_binding mk, h]
  rfl

/-- A thread rule that matches and denotes a CPU decides: the answer is the union of the
matching thread rules. -/
theorem binding_of_thread_rule {r : Rule} (hr : r ∈ threadRules cfg.rules pkg thread)
    (hc : fromRange r.cpus ≠ CpuSet.new) :
    binding cfg topo pkg thread = some (unionCpus (threadRules cfg.rules pkg thread), true) := by
  have hne : threadRules cfg.rules pkg thread ≠ [] := List.ne_nil_of_mem hr
  unfold binding governingRules
  simp only [hne, if_false]
  rw [if_neg (unionCpus_ne_new hr hc)]
  simp [hne]

/-! ### Rules as a set -/

theorem mem_threadRules {rules : List Rule} {r : Rule} :
    r ∈ threadRules rules pkg thread ↔
      r ∈ rules ∧ r.pkg = pkg ∧ r.thread ≠ [] ∧ thread ≠ [] ∧ fnmatch r.thread thread = true := by
  simp [threadRules, and_assoc]

theorem threadRules_append (rules rules' : List Rule) (pkg thread : Str) :
    threadRules (rules ++ rules') pkg thread = threadRules rules pkg thread ++ threadRules rules' pkg thread :=
  List.filter_append ..

theorem packageRules_append (rules rules' : List Rule) (pkg : Str) :
    packageRules (rules ++ rules') pkg = packageRules rules pkg ++ packageRules rules' pkg :=
  List.filter_append ..

theorem eq_nil_congr {α : Type*} {l l' : List α} (h : ∀ a, a ∈ l ↔ a ∈ l') : l = [] ↔ l' = [] := by
  rw [List.eq_nil_iff_forall_not_mem, List.eq_nil_iff_forall_not_mem]
  simp only [h]

section

variable {cfg' : AppConfig}

theorem mem_threadRules_congr (h : ∀ r, r ∈ cfg.rules ↔ r ∈ cfg'.rules) (r : Rule) :
    r ∈ threadRules cfg.rules pkg thread ↔ r ∈ threadRules cfg'.rules pkg thread := by
  rw [mem_threadRules, mem_threadRules, h]

theorem mem_packageRules_congr (h : ∀ r, r ∈ cfg.rules ↔ r ∈ cfg'.rules) (r : Rule) :
    r ∈ packageRules cfg.rules pkg ↔ r ∈ packageRules cfg'.rules pkg := by
  rw [mem_packageRules, mem_packageRules, h]

theorem unionCpus_governingRules_congr (h : ∀ r, r ∈ cfg.rules ↔ r ∈ cfg'.rules) :
    unionCpus (governingRules cfg.rules pkg thread) = unionCpus (governingRules cfg'.rules pkg thread) := by
  have hT := @mem_threadRules_congr cfg pkg thread cfg' h
  unfold governingRules
  by_cases hn : threadRules cfg.rules pkg thread = []
  · rw [if_pos hn, if_pos ((eq_nil_congr hT).mp hn)]
    exact unionCpus_congr (mem_packageRules_congr h)
  · rw [if_neg hn, if_neg (fun h' => hn ((eq_nil_congr hT).mpr h'))]
    exact unionCpus_congr hT

theorem pkgHasThreadRules_congr (h : ∀ r, r ∈ cfg.rules ↔ r ∈ cfg'.rules) :
    cfg.pkgHasThreadRules pkg = cfg'.pkgHasThreadRules pkg := by
  unfold AppConfig.pkgHasThreadRules
  rw [Bool.eq_iff_iff, List.any_eq_true, List.any_eq_true]
  simp only [h]

/-- The binding depends on the rules as a set. -/
theorem binding_congr (h : ∀ r, r ∈ cfg.rules ↔ r ∈ cfg'.rules) :
    binding cfg topo pkg thread = binding cfg' topo pkg thread := by
  have hflag : (threadRules cfg.rules pkg thread != []) = (threadRules cfg'.rules pkg thread != []) := by
    rw [Bool.eq_iff_iff, bne_iff_ne, bne_iff_ne, ne_eq, ne_eq, eq_nil_congr (mem_threadRules_congr h)]
  unfold binding
  rw [unionCpus_governingRules_congr h, hflag, pkgHasThreadRules_congr h]

end

end AetherOptExt
