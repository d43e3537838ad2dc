import AetherOptExt.AutoAllocation
import AetherOptExt.CacheMerge

/-! # From an automatic allocation to its bindings

`cache.save` writes the placement of an application's threads as an entry, and `cache.merge`
reads the entry back as rules.  Each heavy name becomes a thread rule under the text of its
CPUs (`mem_mergedRules_save`), and every other name falls back to the package-level rule of
the little CPUs.

The empty name is different.  `scan_unknown` puts it in for a name it cannot read, its load is
that of the middle CPUs, and a rule without a thread name is a package-level rule: the middle
CPUs join the little ones for the whole application.  `allocation_iff` says that nothing else
goes wrong. -/

namespace AetherOptExt

open cache

variable {parse : Str → Option JsonValue} {stringifyPretty : JsonValue → Str} {old : Option Str} {cfg : AppConfig}
  {topo : CpuTopology} {pkg thread big mid little : Str} {all : List UnknownApp} {r : Rule}

/-- The names of the threads of all processes called `pkg`. -/
def threadNames (pkg : Str) (all : List UnknownApp) : List Str :=
  (all.filter (·.pkg == pkg)).flatMap (fun app => app.threads.map Prod.snd)

/-- The CPUs a name is meant for. -/
def estimatedCpus (big mid little name : Str) : CpuSet :=
  if 8 ≤ estLoad name then fromRange big
  else if 5 ≤ estLoad name ∧ mid ≠ [] then fromRange mid
  else fromRange little

/-! ### Sorting the names -/

theorem foldl_sortName (hasMid : Bool) : ∀ (names : List Str) (acc : Names),
    (names.foldl (sortName hasMid) acc).bigNames = acc.bigNames ++ names.filter (fun n => decide (8 ≤ estLoad n)) ∧
      (names.foldl (sortName hasMid) acc).midNames =
        acc.midNames ++ names.filter (fun n => decide (estLoad n < 8) && (decide (5 ≤ estLoad n) && hasMid))
  | [], acc => by simp
  | n :: names, acc => by
      obtain ⟨hbig, hmid⟩ := foldl_sortName hasMid names (sortName hasMid acc n)
      rw [List.foldl_cons, hbig, hmid]
      unfold sortName
      by_cases h₁ : 8 ≤ estLoad n
      · simp [h₁]
      · by_cases h₂ : (decide (5 ≤ estLoad n) && hasMid) = true
        · have h₃ : estLoad n < 8 := Nat.lt_of_not_le h₁
          simp [h₁, h₂, h₃]
        · simp [h₁, h₂]

theorem sortNames_eq_foldl (pkg : Str) (all : List UnknownApp) (hasMid : Bool) :
    sortNames pkg all hasMid = (threadNames pkg all).foldl (sortName hasMid) ⟨[], [], []⟩ := by
  unfold sortNames threadNames
  rw [List.foldl_flatMap]
  simp only [List.foldl_map]

theorem mem_bigNames {hasMid : Bool} {n : Str} :
    n ∈ (sortNames pkg all hasMid).bigNames ↔ n ∈ threadNames pkg all ∧ 8 ≤ estLoad n := by
  rw [sortNames_eq_foldl, (foldl_sortName hasMid _ _).1, List.nil_append, List.mem_filter, decide_eq_true_eq]

theorem mem_midNames {hasMid : Bool} {n : Str} : n ∈ (sortNames pkg all hasMid).midNames ↔
    n ∈ threadNames pkg all ∧ estLoad n < 8 ∧ 5 ≤ estLoad n ∧ hasMid = true := by
  rw [sortNames_eq_foldl, (foldl_sortName hasMid _ _).2, List.nil_append, List.mem_filter, Bool.and_eq_true,
    Bool.and_eq_true, decide_eq_true_eq, decide_eq_true_eq]

/-! ### The written entry -/

/-- The pairs of key and name of a map. -/
def keyNames (map : List (Str × List Str)) : List (Str × Str) := map.flatMap (fun e => e.2.map (fun n => (e.1, n)))

theorem mem_keyNames_pushName {key name : Str} {p : Str × Str} : ∀ {map : List (Str × List Str)},
    p ∈ keyNames (pushName key map name) ↔ p = (key, name) ∨ p ∈ keyNames map
  | [] => by simp [pushName, keyNames]
  | (k, names) :: rest => by
      have ih : p ∈ keyNames (pushName key rest name) ↔ p = (key, name) ∨ p ∈ keyNames rest := mem_keyNames_pushName
      unfold keyNames at ih ⊢
      unfold pushName
      split_ifs with h₁ h₂
      · subst h₁
        simp only [List.flatMap_cons, List.map_append, List.mem_append, List.map_cons, List.map_nil,
          List.mem_singleton]
        tauto
      · simp only [List.flatMap_cons, List.mem_append, List.map_cons, List.map_nil, List.mem_singleton]
      · simp only [List.flatMap_cons, List.mem_append, ih]
        tauto

theorem mem_keyNames_foldl {key : Str} {p : Str × Str} : ∀ (names : List Str) (map : List (Str × List Str)),
    p ∈ keyNames (names.foldl (pushName key) map) ↔ (p.1 = key ∧ p.2 ∈ names) ∨ p ∈ keyNames map
  | [], map => by simp
  | n :: names, map => by
      rw [List.foldl_cons, mem_keyNames_foldl names, mem_keyNames_pushName, List.mem_cons, Prod.ext_iff]
      tauto

theorem entryPackages_allocEntry : entryPackages (allocEntry pkg all big mid little) = [pkg] := rfl

theorem entryOther_allocEntry : entryOther (allocEntry pkg all big mid little) = little := rfl

theorem mem_entryComm_allocEntry {p : Str × Str} : p ∈ entryComm (allocEntry pkg all big mid little) ↔
    (p.1 = big ∧ p.2 ∈ (sortNames pkg all (!mid.isEmpty)).bigNames) ∨
      (p.1 = mid ∧ p.2 ∈ (sortNames pkg all (!mid.isEmpty)).midNames) := by
  unfold allocEntry
  generalize sortNames pkg all (!mid.isEmpty) = names
  by_cases hn : names.bigNames = [] ∧ names.midNames = []
  · simp only [hn.1, hn.2, List.not_mem_nil, and_false, or_self, iff_false]
    exact List.not_mem_nil
  · have hfalse : (names.bigNames.isEmpty && names.midNames.isEmpty) = false := by
      rw [Bool.eq_false_iff, ne_eq, Bool.and_eq_true, List.isEmpty_iff, List.isEmpty_iff]
      exact hn
    have hpairs : ∀ map : List (Str × List Str),
        (map.map (fun e => (e.1, JsonValue.array (e.2.map .string)))).flatMap (fun f =>
          (f.2.members.filterMap JsonValue.asStr).map (fun name => (f.1, name))) = keyNames map := by
      intro map
      rw [List.flatMap_map]
      unfold keyNames
      refine List.flatMap_congr fun e _ => ?_
      rw [JsonValue.members, List.filterMap_map]
      congr 1
      exact List.filterMap_some
    simp only [hfalse]
    change p ∈ List.flatMap _ (List.map _ _) ↔ _
    rw [hpairs, mem_keyNames_foldl, mem_keyNames_foldl]
    simp only [keyNames, List.flatMap_nil, List.not_mem_nil, or_false]
    exact or_comm

/-! ### The merged rules -/

/-- The package-level rule of an allocated package. -/
def otherRule (pkg little : Str) : Rule := { pkg := pkg, thread := [], cpus := little, prio := 200, cpusetDir := [] }

/-- The rules of an allocated package: the package-level rule of the little CPUs, and a rule for
every name among the big and the middle ones. -/
def Allocated (pkg : Str) (all : List UnknownApp) (big mid little : Str) (r : Rule) : Prop :=
  r = otherRule pkg little ∨ ∃ p, r = commRule pkg p ∧ p.2 ∈ threadNames pkg all ∧
    ((p.1 = big ∧ 8 ≤ estLoad p.2) ∨ (p.1 = mid ∧ estLoad p.2 < 8 ∧ 5 ≤ estLoad p.2 ∧ mid ≠ []))

/-- `merge` reads back the rules of the allocation. -/
theorem mem_mergedRules_save (hb : isBlacklisted pkg = false) (hold : oldEntries parse old = [])
    (hparse : parse (stringifyPretty (deduped parse old pkg (allocEntry pkg all big mid little))) =
      some (deduped parse old pkg (allocEntry pkg all big mid little))) :
    r ∈ mergedRules parse (save parse stringifyPretty old pkg all big mid little) ↔
      Allocated pkg all big mid little r := by
  have hsave : save parse stringifyPretty old pkg all big mid little =
      some (stringifyPretty (deduped parse old pkg (allocEntry pkg all big mid little))) := by
    unfold save
    rw [hb]
    rfl
  have hrules : mergedRules parse (save parse stringifyPretty old pkg all big mid little) =
      cacheRules (allocEntry pkg all big mid little) := by
    unfold mergedRules cacheEntries
    rw [hsave, Option.bind_some, hparse]
    simp [deduped, hold, JsonValue.isArray, JsonValue.members, mergedEntries, entryPackages_allocEntry]
  rw [hrules]
  unfold cacheRules Allocated
  rw [entryPackages_allocEntry, entryOther_allocEntry]
  dsimp only
  rw [List.mem_cons, List.mem_map]
  refine or_congr_right (exists_congr fun p => ?_)
  rw [mem_entryComm_allocEntry, mem_bigNames, mem_midNames]
  have hmid : (!mid.isEmpty) = true ↔ mid ≠ [] := by simp
  rw [hmid, eq_comm]
  tauto

/-! ### What the merged rules answer -/

/-- The empty name is among the threads and brings the little CPUs further ones. -/
def EmptyNameSpreads (pkg : Str) (all : List UnknownApp) (mid little : Str) : Prop :=
  [] ∈ threadNames pkg all ∧ mid ≠ [] ∧ ¬ fromRange mid ⊆ fromRange little

section

variable {rules : List Rule} (h : ∀ r, r.pkg = pkg → (r ∈ rules ↔ Allocated pkg all big mid little r))

include h

/-- The package-level rules: that of the little CPUs, and one made of the empty name. -/
theorem mem_packageRules_allocated : r ∈ packageRules rules pkg ↔
    r = otherRule pkg little ∨ (r = commRule pkg (mid, []) ∧ [] ∈ threadNames pkg all ∧ mid ≠ []) := by
  have hload : estLoad [] = 5 := by decide
  rw [mem_packageRules]
  constructor
  · rintro ⟨hr, hp, ht⟩
    rcases (h r hp).mp hr with hr | ⟨⟨cpus, n⟩, rfl, hn, hload'⟩
    · exact .inl hr
    · obtain rfl : n = [] := ht
      dsimp only at hload'
      rw [hload] at hload'
      rcases hload' with ⟨-, hlt⟩ | ⟨rfl, -, -, hmid⟩
      · omega
      · exact .inr ⟨rfl, hn, hmid⟩
  · rintro (rfl | ⟨rfl, hn, hmid⟩)
    · exact ⟨(h _ rfl).mpr (.inl rfl), rfl, rfl⟩
    · refine ⟨(h _ rfl).mpr (.inr ⟨_, rfl, hn, .inr ⟨rfl, ?_, ?_, hmid⟩⟩), rfl, rfl⟩
      · rw [hload]
        omega
      · rw [hload]

/-- The thread rules of a name: one for each list that holds it. -/
theorem mem_threadRules_allocated (hstar : ∀ n ∈ threadNames pkg all, '*' ∉ n) (hthread : thread ≠ []) :
    r ∈ threadRules rules pkg thread ↔
      thread ∈ threadNames pkg all ∧ ((r = commRule pkg (big, thread) ∧ 8 ≤ estLoad thread) ∨
        (r = commRule pkg (mid, thread) ∧ estLoad thread < 8 ∧ 5 ≤ estLoad thread ∧ mid ≠ [])) := by
  rw [mem_threadRules]
  constructor
  · rintro ⟨hr, hp, ht, -, hmatch⟩
    rcases (h r hp).mp hr with rfl | ⟨⟨cpus, n⟩, rfl, hn, hload⟩
    · exact absurd rfl ht
    · obtain rfl : n = thread := (fnmatch_literal ht (hstar n hn)).mp hmatch
      rcases hload with ⟨rfl, hload⟩ | ⟨rfl, hload⟩
      · exact ⟨hn, .inl ⟨rfl, hload⟩⟩
      · exact ⟨hn, .inr ⟨rfl, hload⟩⟩
  · rintro ⟨hn, ⟨rfl, hload⟩ | ⟨rfl, hload⟩⟩
    · exact ⟨(h _ rfl).mpr (.inr ⟨_, rfl, hn, .inl ⟨rfl, hload⟩⟩), rfl, hthread, hthread, fnmatch_self hthread⟩
    · exact ⟨(h _ rfl).mpr (.inr ⟨_, rfl, hn, .inr ⟨rfl, hload⟩⟩), rfl, hthread, hthread, fnmatch_self hthread⟩

/-- The package-level rules denote the little CPUs, unless the empty name spreads. -/
theorem unionCpus_packageRules_allocated :
    unionCpus (packageRules rules pkg) = fromRange little ↔ ¬ EmptyNameSpreads pkg all mid little := by
  have hself : otherRule pkg little ∈ packageRules rules pkg := (mem_packageRules_allocated h).mpr (.inl rfl)
  have hcpus : (otherRule pkg little).cpus = little := rfl
  rw [← hcpus, unionCpus_eq_iff hself, hcpus]
  simp only [mem_packageRules_allocated h]
  unfold EmptyNameSpreads
  constructor
  · rintro hsub ⟨hn, hmid, hns⟩
    exact hns (hsub (commRule pkg (mid, [])) (.inr ⟨rfl, hn, hmid⟩))
  · rintro hspread u (rfl | ⟨rfl, hn, hmid⟩)
    · exact fun _ hi => hi
    · exact not_not.mp fun hns => hspread ⟨hn, hmid, hns⟩

/-- A name of the list that is heavy gets the CPUs it is meant for. -/
theorem unionCpus_governingRules_heavy (hstar : ∀ n ∈ threadNames pkg all, '*' ∉ n) (hthread : thread ≠ [])
    (hn : thread ∈ threadNames pkg all) (hheavy : 8 ≤ estLoad thread ∨ (5 ≤ estLoad thread ∧ mid ≠ [])) :
    unionCpus (governingRules rules pkg thread) = estimatedCpus big mid little thread := by
  have hmem : ∀ r, r ∈ threadRules rules pkg thread ↔ _ := fun r => mem_threadRules_allocated h hstar hthread
  obtain ⟨u, hu, hcpus⟩ : ∃ u ∈ threadRules rules pkg thread,
      fromRange u.cpus = estimatedCpus big mid little thread := by
    unfold estimatedCpus
    by_cases h8 : 8 ≤ estLoad thread
    · rw [if_pos h8]
      exact ⟨_, (hmem _).mpr ⟨hn, .inl ⟨rfl, h8⟩⟩, rfl⟩
    · have h5 := hheavy.resolve_left h8
      rw [if_neg h8, if_pos h5]
      exact ⟨_, (hmem _).mpr ⟨hn, .inr ⟨rfl, Nat.lt_of_not_le h8, h5⟩⟩, rfl⟩
  have hne : threadRules rules pkg thread ≠ [] := List.ne_nil_of_mem hu
  unfold governingRules
  rw [if_neg hne, ← hcpus, unionCpus_eq_iff hu, hcpus]
  intro v hv
  unfold estimatedCpus
  rcases (hmem v).mp hv with ⟨-, ⟨rfl, h8⟩ | ⟨rfl, h8, h5⟩⟩
  · rw [if_pos h8]
    exact fun _ hi => hi
  · rw [if_neg (Nat.not_le_of_lt h8), if_pos h5]
    exact fun _ hi => hi

/-- Every other name falls back to the package-level rules. -/
theorem governingRules_light (hstar : ∀ n ∈ threadNames pkg all, '*' ∉ n) (hthread : thread ≠ [])
    (hlight : thread ∈ threadNames pkg all → ¬ (8 ≤ estLoad thread ∨ (5 ≤ estLoad thread ∧ mid ≠ []))) :
    governingRules rules pkg thread = packageRules rules pkg := by
  have hnil : threadRules rules pkg thread = [] := by
    rw [List.eq_nil_iff_forall_not_mem]
    intro r hr
    rcases (mem_threadRules_allocated h hstar hthread).mp hr with ⟨hn, ⟨-, h8⟩ | ⟨-, -, h5⟩⟩
    · exact hlight hn (.inl h8)
    · exact hlight hn (.inr h5)
  unfold governingRules
  rw [if_pos hnil]

end

/-- **When an automatic allocation places every thread as estimated.** -/
theorem allocation_iff (parse : Str → Option JsonValue) (stringifyPretty : JsonValue → Str) (old : Option Str)
    (cfg : AppConfig) (topo : CpuTopology) (mk : DirCall → Bool) (pkg : Str) (all : List UnknownApp)
    (big mid little : Str) (hb : isBlacklisted pkg = false) (hold : oldEntries parse old = [])
    (hparse : parse (stringifyPretty (deduped parse old pkg (allocEntry pkg all big mid little))) =
      some (deduped parse old pkg (allocEntry pkg all big mid little)))
    (hcfg : ∀ r ∈ cfg.rules, r.pkg ≠ pkg) (hstar : ∀ n ∈ threadNames pkg all, '*' ∉ n)
    (hbig : fromRange big ≠ CpuSet.new) (hmid : mid ≠ [] → fromRange mid ≠ CpuSet.new)
    (hlittle : fromRange little ≠ CpuSet.new) :
    (∀ c, c ≠ [] →
      (threadAffinity mk pkg c (cfg.mergeCache parse (save parse stringifyPretty old pkg all big mid little))
        topo).map AffinityResult.cpus =
        some (if c ∈ threadNames pkg all then estimatedCpus big mid little c else fromRange little)) ↔
      ¬ EmptyNameSpreads pkg all mid little := by
  have hrules : ∀ r, r.pkg = pkg →
      (r ∈ (cfg.mergeCache parse (save parse stringifyPretty old pkg all big mid little)).rules ↔
        Allocated pkg all big mid little r) := by
    intro r hr
    rw [mergeCache_rules, List.mem_append, mem_mergedRules_save hb hold hparse]
    exact or_iff_right fun h => hcfg r h hr
  constructor
  · intro h
    obtain ⟨c, hc⟩ := Infinite.exists_notMem_finset ([] :: threadNames pkg all).toFinset
    rw [List.mem_toFinset, List.mem_cons, not_or] at hc
    have hgov := governingRules_light hrules hstar hc.1 fun hn => absurd hn hc.2
    have hne : unionCpus (packageRules (cfg.mergeCache parse
        (save parse stringifyPretty old pkg all big mid little)).rules pkg) ≠ CpuSet.new :=
      unionCpus_ne_new (r := otherRule pkg little) ((mem_packageRules_allocated hrules).mpr (.inl rfl)) hlittle
    have hans := h c hc.1
    rw [threadAffinity_cpus (hgov ▸ hne), hgov, if_neg hc.2, Option.some.injEq] at hans
    exact (unionCpus_packageRules_allocated hrules).mp hans
  · intro hspread c hc
    have hpkg := (unionCpus_packageRules_allocated hrules).mpr hspread
    by_cases hheavy : c ∈ threadNames pkg all ∧ (8 ≤ estLoad c ∨ (5 ≤ estLoad c ∧ mid ≠ []))
    · have hgov := unionCpus_governingRules_heavy hrules hstar hc hheavy.1 hheavy.2
      have hne : estimatedCpus big mid little c ≠ CpuSet.new := by
        unfold estimatedCpus
        split_ifs with h8 h5
        · exact hbig
        · exact hmid h5.2
        · exact hlittle
      rw [threadAffinity_cpus (hgov ▸ hne), hgov, if_pos hheavy.1]
    · have hgov := governingRules_light hrules hstar hc fun hn h' => hheavy ⟨hn, h'⟩
      have hlight : (if c ∈ threadNames pkg all then estimatedCpus big mid little c else fromRange little) =
          fromRange little := by
        split_ifs with hn
        · unfold estimatedCpus
          rw [if_neg fun h8 => hheavy ⟨hn, .inl h8⟩, if_neg fun h5 => hheavy ⟨hn, .inr h5⟩]
        · rfl
      rw [threadAffinity_cpus (by rw [hgov, hpkg]; exact hlittle), hgov, hpkg, hlight]

/-- A user application with a main thread, a thread whose name cannot be read, and a light one. -/
def unreadableReading : UnknownReading :=
  { pid := some 4711, cmdline := some "com.b\x00".toList
    status := some "Name:\tcom.b\nUid:\t10123\t10123\t10123\t10123\n".toList
    task := some [(4711, some "UnityMain\n".toList), (4712, none), (4713, some "HttpPool\n".toList)] }

/-- What `scan_unknown` finds of it. -/
def unreadableThread : List UnknownApp := scanUnknown KeySet.empty [] (some [unreadableReading])

/-- The file that is written for it. -/
def allocatedFile : Str × JsonValue :=
  ("[\n  \x7b\n    \"friendly\": \"[auto] com.b\",\n    \"packages\": [\n      \"com.b\"\n    ],\n".toList ++
      "    \"cpuset\": \x7b\n      \"other\": \"0-3\",\n      \"comm\": \x7b\n".toList ++
      "        \"4-6\": [\n          \"\"\n".toList ++
      "        ],\n        \"7\": [\n          \"UnityMain\"\n        ]\n      \x7d\n    \x7d\n  \x7d\n]".toList,
    .array [allocEntry "com.b".toList unreadableThread "7".toList "4-6".toList "0-3".toList])

/-- The light thread gets the middle CPUs as well. -/
theorem empty_name_spreads :
    let data := save (parseOf [allocatedFile]) (fun _ => allocatedFile.1) none "com.b".toList unreadableThread
      "7".toList "4-6".toList "0-3".toList
    data = some allocatedFile.1 ∧ "HttpPool".toList ∈ threadNames "com.b".toList unreadableThread ∧
      ¬ ∀ c, c ≠ [] →
        (threadAffinity (fun _ => false) "com.b".toList c (oneRule.mergeCache (parseOf [allocatedFile]) data)
          eightCpus).map AffinityResult.cpus =
          some (if c ∈ threadNames "com.b".toList unreadableThread then
            estimatedCpus "7".toList "4-6".toList "0-3".toList c else fromRange "0-3".toList) := by
  have hbind : (some allocatedFile.1).bind (parseOf [allocatedFile]) =
      (some ([] : Str)).bind (fun _ => some allocatedFile.2) := by
    rw [Option.bind_some, parseOf_self, Option.bind_some]
  have hmerge : oneRule.mergeCache (parseOf [allocatedFile]) (some allocatedFile.1) =
      oneRule.mergeCache (fun _ => some allocatedFile.2) (some []) := mergeCache_congr hbind
  refine ⟨rfl, by decide, fun h => ?_⟩
  have hlight := h "HttpPool".toList (by decide)
  change (threadAffinity _ _ _ (oneRule.mergeCache (parseOf [allocatedFile]) (some allocatedFile.1)) _).map _ = _
    at hlight
  rw [hmerge] at hlight
  revert hlight
  decide +kernel

/-- The file holds what `save` makes of an empty cache. -/
theorem allocatedFile_eq (parse : Str → Option JsonValue) : allocatedFile.2 =
    deduped parse none "com.b".toList
      (allocEntry "com.b".toList unreadableThread "7".toList "4-6".toList "0-3".toList) := rfl

theorem allocation_iff_unreadable :
    (∀ c, c ≠ [] →
      (threadAffinity (fun _ => false) "com.b".toList c (oneRule.mergeCache (parseOf [allocatedFile])
        (save (parseOf [allocatedFile]) (fun _ => allocatedFile.1) none "com.b".toList unreadableThread
          "7".toList "4-6".toList "0-3".toList)) eightCpus).map AffinityResult.cpus =
        some (if c ∈ threadNames "com.b".toList unreadableThread then
          estimatedCpus "7".toList "4-6".toList "0-3".toList c else fromRange "0-3".toList)) ↔
      ¬ EmptyNameSpreads "com.b".toList unreadableThread "4-6".toList "0-3".toList :=
  allocation_iff _ _ none oneRule eightCpus _ _ unreadableThread _ _ _ (by decide) (by decide)
    (allocatedFile_eq _ ▸ parseOf_self allocatedFile) (by decide) (by decide) (by decide) (fun _ => by decide)
    (by decide)

end AetherOptExt
