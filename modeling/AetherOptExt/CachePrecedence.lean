import AetherOptExt.CacheMerge

/-! # The cache and the user's configuration

The matcher unions all rules of a package and asks for package-level rules only when no thread
rule matches.  Rules that `merge` appends therefore join those of the configuration: they can
add CPUs to an answer, and a cached thread rule takes the place of the configured
package-level rules.  `merge_keeps_iff` says for which packages and thread names an answer
stays as the configuration alone gives it.

`answerOf` is the last step of the matcher, and `answerOf_eq_iff` says when two answers are
equal; the result follows from it by what the cache adds to the rules that decide. -/

namespace AetherOptExt

open CpuSet

/-- The answer made of the CPUs of the rules that decide, the kind of these rules, and whether
some thread rule covers the package. -/
def answerOf (cpus : CpuSet) (flag has : Bool) (present : CpuSet) : Option (CpuSet × Bool) :=
  if cpus = CpuSet.new then if has then some (present, false) else none else some (cpus, flag)

theorem answerOf_eq_iff {c c' p : CpuSet} {f f' h h' : Bool} :
    answerOf c f h p = answerOf c' f' h' p ↔
      (c = CpuSet.new ∧ c' = CpuSet.new ∧ h = h') ∨ (c ≠ CpuSet.new ∧ c = c' ∧ f = f') ∨
      (c = CpuSet.new ∧ c' ≠ CpuSet.new ∧ h = true ∧ p = c' ∧ f' = false) ∨
      (c ≠ CpuSet.new ∧ c' = CpuSet.new ∧ h' = true ∧ p = c ∧ f = false) := by
  unfold answerOf
  by_cases hc : c = CpuSet.new
  · by_cases hc' : c' = CpuSet.new
    · cases h <;> cases h' <;> simp [hc, hc']
    · cases h <;> cases f' <;> simp [hc, hc']
  · by_cases hc' : c' = CpuSet.new
    · cases h' <;> cases f <;> simp [hc, hc', eq_comm]
    · simp [hc, hc']

/-- Some thread rule of the list covers the package. -/
def coversPkg (rules : List Rule) (pkg : Str) : Bool := rules.any (fun r => !r.thread.isEmpty && fnmatch r.pkg pkg)

theorem binding_eq_answerOf (cfg : AppConfig) (topo : CpuTopology) (pkg thread : Str) :
    binding cfg topo pkg thread =
      answerOf (unionCpus (governingRules cfg.rules pkg thread)) (threadRules cfg.rules pkg thread != [])
        (coversPkg cfg.rules pkg) topo.presentCpus := rfl

theorem coversPkg_append (rules rules' : List Rule) (pkg : Str) :
    coversPkg (rules ++ rules') pkg = (coversPkg rules pkg || coversPkg rules' pkg) := List.any_append

theorem unionCpus_append (rules rules' : List Rule) :
    unionCpus (rules ++ rules') = (unionCpus rules).or (unionCpus rules') := by
  apply CpuSet.ext_isSet
  intro i _
  rw [Bool.eq_iff_iff, CpuSet.isSet_or, Bool.or_eq_true, isSet_unionCpus, isSet_unionCpus, isSet_unionCpus]
  simp only [List.mem_append, or_and_right, exists_or]

theorem eq_or_iff {a b : Bool} : a = (a || b) ↔ (b = true → a = true) := by
  cases a <;> cases b <;> simp

/-- The rules `added` do not change the answer for a thread.

Where configured thread rules match, the added ones that match denote no further CPU.  Where
none matches, no added thread rule matches either and the added package-level rules denote no
further CPU, or all present CPUs when the answer is these already.  Where only added thread
rules match, they denote no CPU at all and the answer falls back to what it was.  When the
answer has no CPUs of its own, the added rules must not bring the package its first thread
rules. -/
def AddsNothing (cfg : AppConfig) (added : List Rule) (topo : CpuTopology) (pkg thread : Str) : Prop :=
  let T := unionCpus (threadRules cfg.rules pkg thread)
  let P := unionCpus (packageRules cfg.rules pkg)
  let T' := unionCpus (threadRules added pkg thread)
  let P' := unionCpus (packageRules added pkg)
  let coveredBefore := coversPkg added pkg = true → coversPkg cfg.rules pkg = true
  if threadRules cfg.rules pkg thread ≠ [] then T' ⊆ T ∧ (T = CpuSet.new → coveredBefore)
  else if threadRules added pkg thread = [] then
    (P' ⊆ P ∧ (P = CpuSet.new → coveredBefore)) ∨
      (P = CpuSet.new ∧ coversPkg cfg.rules pkg = true ∧ P' = topo.presentCpus)
  else
    T' = CpuSet.new ∧ ((P = CpuSet.new ∧ coveredBefore) ∨
      (P ≠ CpuSet.new ∧ P = topo.presentCpus ∧ (coversPkg cfg.rules pkg || coversPkg added pkg) = true))

theorem binding_append_iff (cfg : AppConfig) (added : List Rule) (topo : CpuTopology) (pkg thread : Str)
    {cfg' : AppConfig} (h : cfg'.rules = cfg.rules ++ added) :
    binding cfg topo pkg thread = binding cfg' topo pkg thread ↔ AddsNothing cfg added topo pkg thread := by
  rw [binding_eq_answerOf, binding_eq_answerOf, h, coversPkg_append, answerOf_eq_iff, eq_or_iff]
  unfold AddsNothing governingRules
  rw [threadRules_append, packageRules_append]
  by_cases hT : threadRules cfg.rules pkg thread = []
  · by_cases hT' : threadRules added pkg thread = []
    · -- package-level rules decide, before and after
      simp only [hT, hT', List.nil_append, if_true, unionCpus_append, ne_eq, not_true_eq_false, if_false,
        bne_self_eq_false]
      generalize unionCpus (packageRules cfg.rules pkg) = P
      generalize unionCpus (packageRules added pkg) = P'
      by_cases hP : P = CpuSet.new
      · subst hP
        simp only [new_or, subset_new, true_and, not_true_eq_false, false_and, or_false, and_true, forall_const,
          false_or]
        constructor
        · rintro (⟨hP', hcov⟩ | ⟨-, hhas, hpres⟩)
          · exact .inl ⟨hP', hcov⟩
          · exact .inr ⟨hhas, hpres.symm⟩
        · rintro (⟨hP', hcov⟩ | ⟨hhas, hpres⟩)
          · exact .inl ⟨hP', hcov⟩
          · by_cases hP' : P' = CpuSet.new
            · exact .inl ⟨hP', fun _ => hhas⟩
            · exact .inr ⟨hP', hhas, hpres.symm⟩
      · have hor : P.or P' ≠ CpuSet.new := fun h' => hP (or_eq_new.mp h').1
        simp only [hP, hor, false_and, not_false_eq_true, true_and, and_true, or_false, false_or, false_imp_iff]
        rw [eq_comm, or_eq_left]
    · -- only added thread rules match
      have hflag : ([] ++ threadRules added pkg thread != []) = true := by simpa using hT'
      simp only [hT, hT', List.nil_append, if_true, if_false, ne_eq, not_true_eq_false, bne_self_eq_false]
      rw [List.nil_append] at hflag
      simp only [hflag, Bool.false_eq_true, and_false, false_or, reduceCtorEq, and_true]
      constructor
      · rintro (⟨hP, hT'', hcov⟩ | ⟨hP, hT'', hhas, hpres⟩)
        · exact ⟨hT'', .inl ⟨hP, hcov⟩⟩
        · exact ⟨hT'', .inr ⟨hP, hpres.symm, hhas⟩⟩
      · rintro ⟨hT'', ⟨hP, hcov⟩ | ⟨hP, hpres, hhas⟩⟩
        · exact .inl ⟨hP, hT'', hcov⟩
        · exact .inr ⟨hP, hT'', hhas, hpres.symm⟩
  · -- configured thread rules match
    have happ : threadRules cfg.rules pkg thread ++ threadRules added pkg thread ≠ [] :=
      List.append_ne_nil_of_left_ne_nil hT _
    have hflag : (threadRules cfg.rules pkg thread != []) = true := by simpa using hT
    have hflag' : (threadRules cfg.rules pkg thread ++ threadRules added pkg thread != []) = true := by
      simpa using happ
    simp only [hT, happ, hflag, hflag', if_false, unionCpus_append, ne_eq, not_false_eq_true, if_true,
      Bool.true_eq_false, and_false, or_false, and_true]
    generalize unionCpus (threadRules cfg.rules pkg thread) = T
    generalize unionCpus (threadRules added pkg thread) = T'
    by_cases hU : T = CpuSet.new
    · subst hU
      simp only [new_or, subset_new, true_and, not_true_eq_false, false_and, or_false, forall_const]
    · have hor : T.or T' ≠ CpuSet.new := fun h' => hU (or_eq_new.mp h').1
      simp only [hU, false_and, not_false_eq_true, true_and, false_or, false_imp_iff, and_true]
      rw [eq_comm, or_eq_left]

/-- **When the cache leaves an answer of the configuration as it is.** -/
theorem merge_keeps_iff (parse : Str → Option JsonValue) (data : Option Str) (cfg : AppConfig) (topo : CpuTopology)
    (pkg thread : Str) (mk mk' : DirCall → Bool) :
    SameBinding (threadAffinity mk pkg thread cfg topo)
        (threadAffinity mk' pkg thread (cfg.mergeCache parse data) topo) ↔
      AddsNothing cfg (mergedRules parse data) topo pkg thread := by
  unfold SameBinding
  rw [threadAffinity_binding, threadAffinity_binding]
  exact binding_append_iff cfg (mergedRules parse data) topo pkg thread mergeCache_rules

/-- The user's entry for an application. -/
def userFile : Str × JsonValue :=
  (plainText ["com.a".toList] "4-7".toList, oneEntryFile (plainEntry ["com.a".toList] "4-7".toList))

/-- An application that was allocated automatically and configured later gets the CPUs of
both. -/
theorem cache_overrides_config :
    ∃ cfg, AppConfig.load (parseOf [userFile, oneCached]) (fun _ _ => false) eightCpus (some userFile.1) (some 0) =
        some cfg ∧ packageRules cfg.rules "com.a".toList ≠ [] ∧
      (threadAffinity (fun _ => false) "com.a".toList "main".toList cfg cfg.topo).map (·.cpus.toRangeString) =
        some "4-7".toList ∧
      (threadAffinity (fun _ => false) "com.a".toList "main".toList
        (cfg.mergeCache (parseOf [userFile, oneCached]) (some oneCached.1)) cfg.topo).map (·.cpus.toRangeString) =
        some "0-7".toList ∧
      ¬ SameBinding (threadAffinity (fun _ => false) "com.a".toList "main".toList cfg cfg.topo)
        (threadAffinity (fun _ => false) "com.a".toList "main".toList
          (cfg.mergeCache (parseOf [userFile, oneCached]) (some oneCached.1)) cfg.topo) := by
  refine ⟨_, rfl, by decide +kernel, by decide +kernel, by decide +kernel, ?_⟩
  decide +kernel

end AetherOptExt
