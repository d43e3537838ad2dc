import Mathlib.Data.Set.Basic
import AetherOptExt.Daemon

/-! # What `thread_affinity` answers

The matcher runs through the rules in order, with flags, and sets and clears a directory on
the way.  Its answer is a function of two sets of rules: the thread rules of the package that
match the name, and its package-level rules (`threadAffinity_orderFree`).  Neither the order
of the rules nor the rules of other packages matter, for the directory as well as for the
CPUs.

The package-level rules are asked when no thread rule *matches*, not when none contributes a
CPU.  `package_default_iff` says when the two come to the same. -/

namespace AetherOptExt

/-! ### The order-free definition -/

/-- The thread rules of `pkg` that match `thread`, as a set. -/
def threadRuleSet (rules : List Rule) (pkg thread : Str) : Set Rule :=
  {r | r ∈ rules ∧ r.pkg = pkg ∧ r.thread ≠ [] ∧ thread ≠ [] ∧ fnmatch r.thread thread = true}

/-- The package-level rules of `pkg`, as a set. -/
def packageRuleSet (rules : List Rule) (pkg : Str) : Set Rule :=
  {r | r ∈ rules ∧ r.pkg = pkg ∧ r.thread = []}

open Classical in
/-- The set of rules that decides. -/
noncomputable def decidingRules (rules : List Rule) (pkg thread : Str) : Set Rule :=
  if (threadRuleSet rules pkg thread).Nonempty then threadRuleSet rules pkg thread else packageRuleSet rules pkg

/-- The CPUs that a set of rules denotes. -/
def denotedCpus (R : Set Rule) : Set ℕ := {i | ∃ r ∈ R, (fromRange r.cpus).isSet i = true}

/-- The members of a mask. -/
def CpuSet.members (s : CpuSet) : Set ℕ := {i | s.isSet i = true}

open Classical in
/-- The answer that a query has when the deciding rules denote the mask `C`. -/
noncomputable def orderFreeAnswer (cfg : AppConfig) (topo : CpuTopology) (pkg thread : Str) (C : CpuSet) :
    Option (CpuSet × Bool) :=
  if C = CpuSet.new then
    if ∃ r ∈ cfg.rules, r.thread ≠ [] ∧ fnmatch r.pkg pkg = true then some (topo.presentCpus, false) else none
  else some (C, decide (threadRuleSet cfg.rules pkg thread).Nonempty)

section

variable {rules : List Rule} {pkg thread : Str}

theorem mem_threadRules_iff {r : Rule} : r ∈ threadRules rules pkg thread ↔ r ∈ threadRuleSet rules pkg thread :=
  mem_threadRules

theorem threadRuleSet_nonempty : (threadRuleSet rules pkg thread).Nonempty ↔ threadRules rules pkg thread ≠ [] := by
  constructor
  · rintro ⟨r, hr⟩
    exact List.ne_nil_of_mem (mem_threadRules_iff.mpr hr)
  · intro h
    obtain ⟨r, hr⟩ := List.exists_mem_of_ne_nil _ h
    exact ⟨r, mem_threadRules_iff.mp hr⟩

theorem mem_governingRules {r : Rule} : r ∈ governingRules rules pkg thread ↔ r ∈ decidingRules rules pkg thread := by
  unfold governingRules decidingRules
  by_cases h : threadRules rules pkg thread = []
  · rw [if_pos h, if_neg (fun hn => threadRuleSet_nonempty.mp hn h)]
    exact mem_packageRules
  · rw [if_neg h, if_pos (threadRuleSet_nonempty.mpr h)]
    exact mem_threadRules_iff

theorem members_unionCpus : (unionCpus (governingRules rules pkg thread)).members =
    denotedCpus (decidingRules rules pkg thread) := by
  ext i
  show (unionCpus (governingRules rules pkg thread)).isSet i = true ↔ _
  rw [isSet_unionCpus]
  simp only [mem_governingRules]
  rfl

theorem pkgHasThreadRules_iff {cfg : AppConfig} :
    cfg.pkgHasThreadRules pkg = true ↔ ∃ r ∈ cfg.rules, r.thread ≠ [] ∧ fnmatch r.pkg pkg = true := by
  unfold AppConfig.pkgHasThreadRules
  simp

open Classical in
theorem binding_eq_orderFreeAnswer (cfg : AppConfig) (topo : CpuTopology) : binding cfg topo pkg thread =
    orderFreeAnswer cfg topo pkg thread (unionCpus (governingRules cfg.rules pkg thread)) := by
  unfold binding orderFreeAnswer
  have hflag : (threadRules cfg.rules pkg thread != []) = decide (threadRuleSet cfg.rules pkg thread).Nonempty := by
    rw [Bool.eq_iff_iff, bne_iff_ne, decide_eq_true_eq, threadRuleSet_nonempty]
  dsimp only
  rw [hflag]
  refine if_congr Iff.rfl ?_ rfl
  exact if_congr pkgHasThreadRules_iff rfl rfl

end

/-! ### Rules that do not matter -/

/-- The directory of the fallback does not depend on the order of the rules: only a single rule
has one. -/
theorem fallbackDir_perm (mk : DirCall → Bool) (topo : CpuTopology) {rules rules' : List Rule}
    (h : rules.Perm rules') : fallbackDir mk topo rules = fallbackDir mk topo rules' := by
  have hlen := h.length_eq
  match rules, rules', h, hlen with
  | [], [], _, _ => rfl
  | [r], [r'], h, _ => rw [List.singleton_perm_singleton.mp h]
  | _ :: _ :: _, _ :: _ :: _, _, _ => rfl

/-- Configurations with the same thread and package-level rules for a query, perhaps in another
order, answer it in the same way. -/
theorem threadAffinity_congr (mk : DirCall → Bool) (topo : CpuTopology) {cfg cfg' : AppConfig} {pkg thread : Str}
    (hT : (threadRules cfg.rules pkg thread).Perm (threadRules cfg'.rules pkg thread))
    (hP : (packageRules cfg.rules pkg).Perm (packageRules cfg'.rules pkg))
    (hH : cfg.pkgHasThreadRules pkg = cfg'.pkgHasThreadRules pkg) :
    threadAffinity mk pkg thread cfg topo = threadAffinity mk pkg thread cfg' topo := by
  have hnil : threadRules cfg.rules pkg thread = [] ↔ threadRules cfg'.rules pkg thread = [] :=
    eq_nil_congr fun r => hT.mem_iff
  have hunion : unionCpus (threadRules cfg.rules pkg thread) = unionCpus (threadRules cfg'.rules pkg thread) :=
    unionCpus_congr fun r => hT.mem_iff
  have hgov : unionCpus (governingRules cfg.rules pkg thread) = unionCpus (governingRules cfg'.rules pkg thread) := by
    unfold governingRules
    by_cases hn : threadRules cfg.rules pkg thread = []
    · rw [if_pos hn, if_pos (hnil.mp hn)]
      exact unionCpus_congr fun r => hP.mem_iff
    · rw [if_neg hn, if_neg (fun h => hn (hnil.mpr h)), hunion]
  have hflag : (threadRules cfg.rules pkg thread != []) = (threadRules cfg'.rules pkg thread != []) := by
    rw [Bool.eq_iff_iff, bne_iff_ne, bne_iff_ne, ne_eq, ne_eq, hnil]
  have hdir : (if threadRules cfg.rules pkg thread = [] then fallbackDir mk topo (packageRules cfg.rules pkg)
        else (ensureCpusetDir mk (unionCpus (threadRules cfg.rules pkg thread)) topo).1) =
      if threadRules cfg'.rules pkg thread = [] then fallbackDir mk topo (packageRules cfg'.rules pkg)
        else (ensureCpusetDir mk (unionCpus (threadRules cfg'.rules pkg thread)) topo).1 := by
    rw [fallbackDir_perm mk topo hP, hunion]
    exact if_congr hnil rfl rfl
  rw [threadAffinity_eq, threadAffinity_eq, hgov, hH, hflag, hdir]

theorem filter_filter_of_imp {α : Type*} {keep p : α → Bool} {l : List α} (h : ∀ a ∈ l, p a = true → keep a = true) :
    (l.filter keep).filter p = l.filter p := by
  rw [List.filter_filter]
  refine List.filter_congr fun a ha => ?_
  cases hp : p a with
  | false => rfl
  | true => rw [h a ha hp]; rfl

/-- Without the rules whose package neither is nor covers the queried one, the answer is the
same. -/
theorem threadAffinity_filter (mk : DirCall → Bool) (topo : CpuTopology) (cfg : AppConfig) (pkg thread : Str)
    (keep : Rule → Bool) (h : ∀ r ∈ cfg.rules, keep r = false → r.pkg ≠ pkg ∧ fnmatch r.pkg pkg = false) :
    threadAffinity mk pkg thread { cfg with rules := cfg.rules.filter keep } topo =
      threadAffinity mk pkg thread cfg topo := by
  have hkeep : ∀ r ∈ cfg.rules, r.pkg = pkg → keep r = true := by
    intro r hr hp
    by_contra hk
    exact (h r hr (Bool.eq_false_iff.mpr hk)).1 hp
  have hT : threadRules (cfg.rules.filter keep) pkg thread = threadRules cfg.rules pkg thread := by
    refine filter_filter_of_imp fun r hr hp => ?_
    simp only [Bool.and_eq_true, beq_iff_eq] at hp
    exact hkeep r hr hp.1.1.1
  have hP : packageRules (cfg.rules.filter keep) pkg = packageRules cfg.rules pkg := by
    refine filter_filter_of_imp fun r hr hp => ?_
    simp only [Bool.and_eq_true, beq_iff_eq] at hp
    exact hkeep r hr hp.1
  have hH : ({ cfg with rules := cfg.rules.filter keep } : AppConfig).pkgHasThreadRules pkg =
      cfg.pkgHasThreadRules pkg := by
    rw [Bool.eq_iff_iff, pkgHasThreadRules_iff, pkgHasThreadRules_iff]
    constructor
    · rintro ⟨r, hr, hth, hm⟩
      exact ⟨r, List.mem_of_mem_filter hr, hth, hm⟩
    · rintro ⟨r, hr, hth, hm⟩
      refine ⟨r, List.mem_filter.mpr ⟨hr, ?_⟩, hth, hm⟩
      by_contra hk
      rw [(h r hr (Bool.eq_false_iff.mpr hk)).2] at hm
      cases hm
  exact threadAffinity_congr mk topo (by rw [hT]) (by rw [hP]) hH

/-- **`thread_affinity` is its order-free definition**, and neither the order of the rules nor
the rules of other packages change any part of its result. -/
theorem threadAffinity_orderFree (mk : DirCall → Bool) (pkg thread : Str) (cfg : AppConfig) (topo : CpuTopology) :
    (∃ C : CpuSet, C.members = denotedCpus (decidingRules cfg.rules pkg thread) ∧
      (threadAffinity mk pkg thread cfg topo).map AffinityResult.binding =
        orderFreeAnswer cfg topo pkg thread C) ∧
    (∀ rules', rules'.Perm cfg.rules →
      threadAffinity mk pkg thread { cfg with rules := rules' } topo = threadAffinity mk pkg thread cfg topo) ∧
    ∀ keep : Rule → Bool, (∀ r ∈ cfg.rules, keep r = false → r.pkg ≠ pkg ∧ fnmatch r.pkg pkg = false) →
      threadAffinity mk pkg thread { cfg with rules := cfg.rules.filter keep } topo =
        threadAffinity mk pkg thread cfg topo := by
  refine ⟨⟨unionCpus (governingRules cfg.rules pkg thread), members_unionCpus, ?_⟩, fun rules' hp => ?_,
    threadAffinity_filter mk topo cfg pkg thread⟩
  · rw [threadAffinity_binding, binding_eq_orderFreeAnswer]
  · exact threadAffinity_congr mk topo (hp.filter _) (hp.filter _)
      (@pkgHasThreadRules_congr { cfg with rules := rules' } pkg cfg fun r => hp.mem_iff)

/-! ### The package default -/

/-- **When the package default is handed out**: a thread whose matching thread rules denote no
CPU gets the CPUs of the package-level rules exactly when no thread rule matches it at all, or
these are the present CPUs, which the package gets for having thread rules. -/
theorem package_default_iff (mk : DirCall → Bool) (pkg thread : Str) (cfg : AppConfig) (topo : CpuTopology)
    (hT : unionCpus (threadRules cfg.rules pkg thread) = CpuSet.new)
    (hP : unionCpus (packageRules cfg.rules pkg) ≠ CpuSet.new) :
    (threadAffinity mk pkg thread cfg topo).map AffinityResult.binding =
        some (unionCpus (packageRules cfg.rules pkg), false) ↔
      threadRules cfg.rules pkg thread = [] ∨
        (cfg.pkgHasThreadRules pkg = true ∧ unionCpus (packageRules cfg.rules pkg) = topo.presentCpus) := by
  rw [threadAffinity_binding]
  unfold binding governingRules
  by_cases hn : threadRules cfg.rules pkg thread = []
  · simp [hn, hP]
  · simp only [hn, if_false, hT, if_true, false_or]
    cases cfg.pkgHasThreadRules pkg with
    | false => simp
    | true => simp [eq_comm]

/-- The rules of a game whose file writes one CPU list with a slash. -/
def slashRules : AppConfig :=
  { oneRule with
    rules := [⟨"com.neowizgames.game.browndust2".toList, [], "0-6".toList, 200, []⟩,
      ⟨"com.neowizgames.game.browndust2".toList, "UnityMain".toList, "6-7".toList, 1009, []⟩,
      ⟨"com.neowizgames.game.browndust2".toList, "Job*".toList, "0/5".toList, 103, []⟩] }

/-- A job thread of that game gets all eight CPUs instead of the default. -/
theorem slash_rule_loses_default :
    ¬ (unionCpus (threadRules slashRules.rules "com.neowizgames.game.browndust2".toList "Job.Worker 1".toList) =
          CpuSet.new →
        unionCpus (packageRules slashRules.rules "com.neowizgames.game.browndust2".toList) ≠ CpuSet.new →
        (threadAffinity (fun _ => true) "com.neowizgames.game.browndust2".toList "Job.Worker 1".toList slashRules
            slashRules.topo).map AffinityResult.binding =
          some (unionCpus (packageRules slashRules.rules "com.neowizgames.game.browndust2".toList), false)) := by
  decide +kernel

theorem package_default_iff_main :
    (threadAffinity (fun _ => true) "com.neowizgames.game.browndust2".toList "main".toList slashRules
          slashRules.topo).map AffinityResult.binding =
        some (unionCpus (packageRules slashRules.rules "com.neowizgames.game.browndust2".toList), false) ↔
      threadRules slashRules.rules "com.neowizgames.game.browndust2".toList "main".toList = [] ∨
        (slashRules.pkgHasThreadRules "com.neowizgames.game.browndust2".toList = true ∧
          unionCpus (packageRules slashRules.rules "com.neowizgames.game.browndust2".toList) =
            slashRules.topo.presentCpus) :=
  package_default_iff _ _ _ slashRules slashRules.topo (by decide +kernel) (by decide +kernel)

end AetherOptExt
