import AetherOptExt.CpusetDirs

/-! # Merging the auto-allocation cache

`cache::merge` appends the rules of the cache file to those of the configuration.  Its list of
seen packages is local to one call, so a second call appends the same rules again.  The set of
configured names does not see this, nor do the CPUs and the flag of an answer, which depend on
the rules as a set (`mergeTimes_binding`).  The directory does: the fallback names one only for
a package with a single package-level rule (`mergeTimes_affinity_iff`).  And the rules of every
cached package grow with each call, so that merging is idempotent only when the file adds
nothing (`mergeTimes_idempotent_iff`). -/

namespace AetherOptExt

variable {parse : Str → Option JsonValue} {data : Option Str} {cfg : AppConfig} {topo : CpuTopology}
  {pkg thread : Str}

/-- The entries that `merge` takes from a cache file: an array that can be read and parsed,
without the entries that name no package or one that was seen. -/
def cacheEntries (parse : Str → Option JsonValue) (data : Option Str) : List JsonValue :=
  match data.bind parse with
  | none => []
  | some root => if root.isArray then mergedEntries root.members KeySet.empty else []

/-- The rules made of one entry of the cache. -/
def cacheRules (e : JsonValue) : List Rule :=
  match entryPackages e with
  | [] => []
  | first :: _ =>
      { pkg := first, thread := [], cpus := entryOther e, prio := 200, cpusetDir := [] } ::
        (entryComm e).map (commRule first)

/-- The rules that `merge` appends. -/
def mergedRules (parse : Str → Option JsonValue) (data : Option Str) : List Rule :=
  (cacheEntries parse data).flatMap cacheRules

/-- `merge` applied `k` times to one cache file. -/
def mergeTimes (parse : Str → Option JsonValue) (data : Option Str) (k : ℕ) (cfg : AppConfig) : AppConfig :=
  mergeAll parse (List.replicate k data) cfg

/-! ### One call -/

theorem foldl_mergeEntry_rules : ∀ (entries : List JsonValue) (acc : cache.Merged),
    (entries.foldl cache.mergeEntry acc).rules =
      acc.rules ++ (mergedEntries entries acc.seenPkgs).flatMap cacheRules
  | [], acc => by simp [mergedEntries]
  | e :: entries, acc => by
      rw [List.foldl_cons, foldl_mergeEntry_rules entries]
      cases hp : entryPackages e with
      | nil => simp only [cache.mergeEntry, mergedEntries, hp]
      | cons first rest =>
          simp only [cache.mergeEntry, mergedEntries, hp]
          split_ifs with hs
          · rfl
          · rw [List.flatMap_cons, ← List.append_assoc]
            congr 1
            simp only [cacheRules, hp]

theorem foldl_mergeEntry_set : ∀ (entries : List JsonValue) (acc : cache.Merged),
    (entries.foldl cache.mergeEntry acc).set =
      (mergedEntries entries acc.seenPkgs).foldl (fun set e => (entryPackages e).foldl KeySet.insert set) acc.set
  | [], acc => by simp [mergedEntries]
  | e :: entries, acc => by
      rw [List.foldl_cons, foldl_mergeEntry_set entries]
      cases hp : entryPackages e with
      | nil => simp only [cache.mergeEntry, mergedEntries, hp]
      | cons first rest =>
          simp only [cache.mergeEntry, mergedEntries, hp]
          split_ifs with hs
          · rfl
          · conv_rhs => rw [List.foldl_cons, hp]

/-- `merge` appends the rules of the entries it takes. -/
theorem merge_rules (set : KeySet Str) (rules : List Rule) :
    (cache.merge parse data set rules).2 = rules ++ mergedRules parse data := by
  unfold cache.merge mergedRules cacheEntries
  cases data.bind parse with
  | none => exact (List.append_nil _).symm
  | some root =>
      dsimp only
      split_ifs
      · exact foldl_mergeEntry_rules root.members _
      · exact (List.append_nil _).symm

theorem mergeCache_rules : (cfg.mergeCache parse data).rules = cfg.rules ++ mergedRules parse data :=
  merge_rules cfg.pkgSet cfg.rules

theorem mergeCache_pkgSet : (cfg.mergeCache parse data).pkgSet =
    (cacheEntries parse data).foldl (fun set e => (entryPackages e).foldl KeySet.insert set) cfg.pkgSet := by
  unfold AppConfig.mergeCache cache.merge cacheEntries
  cases data.bind parse with
  | none => rfl
  | some root =>
      dsimp only
      split_ifs
      · exact foldl_mergeEntry_set root.members _
      · rfl

theorem mem_foldl_insert_names {n : Str} : ∀ (es : List JsonValue) (set : KeySet Str),
    n ∈ es.foldl (fun set e => (entryPackages e).foldl KeySet.insert set) set ↔
      n ∈ set ∨ ∃ e ∈ es, n ∈ entryPackages e
  | [], set => by simp
  | e :: es, set => by
      rw [List.foldl_cons, mem_foldl_insert_names es, KeySet.mem_foldl_insert, List.exists_mem_cons_iff,
        or_comm (a := n ∈ entryPackages e), or_assoc]

theorem mem_mergeCache_pkgSet {n : Str} :
    n ∈ (cfg.mergeCache parse data).pkgSet ↔ n ∈ cfg.pkgSet ∨ ∃ e ∈ cacheEntries parse data, n ∈ entryPackages e := by
  rw [mergeCache_pkgSet]
  exact mem_foldl_insert_names _ _

/-- Only entries with a package are taken. -/
theorem entryPackages_of_mem_mergedEntries {e : JsonValue} : ∀ {entries : List JsonValue} {seen : KeySet Str},
    e ∈ mergedEntries entries seen → entryPackages e ≠ []
  | d :: entries, seen, h => by
      unfold mergedEntries at h
      cases hp : entryPackages d with
      | nil =>
          rw [hp] at h
          exact entryPackages_of_mem_mergedEntries h
      | cons first rest =>
          rw [hp] at h
          dsimp only at h
          split_ifs at h
          · exact entryPackages_of_mem_mergedEntries h
          · rcases List.mem_cons.mp h with rfl | h
            · rw [hp]
              exact List.cons_ne_nil _ _
            · exact entryPackages_of_mem_mergedEntries h

theorem entryPackages_of_mem_cacheEntries {e : JsonValue} (h : e ∈ cacheEntries parse data) :
    entryPackages e ≠ [] := by
  unfold cacheEntries at h
  cases hroot : data.bind parse with
  | none => simp [hroot] at h
  | some root =>
      rw [hroot] at h
      dsimp only at h
      split_ifs at h
      · exact entryPackages_of_mem_mergedEntries h
      · exact absurd h List.not_mem_nil

/-- Merged rules come without a directory, and their package has a merged package-level rule. -/
theorem mergedRules_spec {r : Rule} (h : r ∈ mergedRules parse data) :
    r.cpusetDir = [] ∧ ∃ r' ∈ mergedRules parse data, r'.pkg = r.pkg ∧ r'.thread = [] := by
  obtain ⟨e, he, hr⟩ := List.mem_flatMap.mp h
  have hself : ∀ r' ∈ cacheRules e, r' ∈ mergedRules parse data := fun r' hr' => List.mem_flatMap.mpr ⟨e, he, hr'⟩
  unfold cacheRules at hr hself
  cases hp : entryPackages e with
  | nil => exact absurd hp (entryPackages_of_mem_cacheEntries he)
  | cons first rest =>
      rw [hp] at hr hself
      have hother := hself _ List.mem_cons_self
      rcases List.mem_cons.mp hr with rfl | hr
      · exact ⟨rfl, _, hother, rfl, rfl⟩
      · obtain ⟨cn, -, rfl⟩ := List.mem_map.mp hr
        exact ⟨rfl, _, hother, rfl, rfl⟩

theorem mergedRules_eq_nil : mergedRules parse data = [] ↔ cacheEntries parse data = [] := by
  constructor
  · intro h
    rw [List.eq_nil_iff_forall_not_mem]
    intro e he
    have hnil := List.flatMap_eq_nil_iff.mp h e he
    unfold cacheRules at hnil
    cases hp : entryPackages e with
    | nil => exact entryPackages_of_mem_cacheEntries he hp
    | cons first rest => simp [hp] at hnil
  · intro h
    unfold mergedRules
    rw [h]
    rfl

/-- A call depends on what the parser makes of the file. -/
theorem mergeCache_congr {parse' : Str → Option JsonValue} {data' : Option Str}
    (h : data.bind parse = data'.bind parse') : cfg.mergeCache parse data = cfg.mergeCache parse' data' := by
  unfold AppConfig.mergeCache cache.merge
  rw [h]

/-! ### Several calls -/

theorem mergeTimes_succ (k : ℕ) (cfg : AppConfig) :
    mergeTimes parse data (k + 1) cfg = mergeTimes parse data k (cfg.mergeCache parse data) := rfl

theorem mergeTimes_rules : ∀ (k : ℕ) (cfg : AppConfig),
    (mergeTimes parse data k cfg).rules = cfg.rules ++ (List.replicate k (mergedRules parse data)).flatten
  | 0, cfg => (List.append_nil _).symm
  | k + 1, cfg => by
      rw [mergeTimes_succ, mergeTimes_rules k, mergeCache_rules, List.append_assoc]
      rfl

theorem mem_mergeTimes_rules {k : ℕ} (hk : 1 ≤ k) {r : Rule} :
    r ∈ (mergeTimes parse data k cfg).rules ↔ r ∈ cfg.rules ∨ r ∈ mergedRules parse data := by
  rw [mergeTimes_rules, List.mem_append, List.mem_flatten]
  apply or_congr_right
  constructor
  · rintro ⟨l, hl, hr⟩
    rw [List.eq_of_mem_replicate hl] at hr
    exact hr
  · exact fun hr => ⟨_, List.mem_replicate.mpr ⟨by omega, rfl⟩, hr⟩

theorem mem_mergeTimes_pkgSet {n : Str} : ∀ {k : ℕ} {cfg : AppConfig}, 1 ≤ k →
    (n ∈ (mergeTimes parse data k cfg).pkgSet ↔
      n ∈ cfg.pkgSet ∨ ∃ e ∈ cacheEntries parse data, n ∈ entryPackages e)
  | 1, cfg, _ => mem_mergeCache_pkgSet
  | k + 2, cfg, _ => by
      rw [mergeTimes_succ, mem_mergeTimes_pkgSet (Nat.succ_pos k), mem_mergeCache_pkgSet, or_assoc, or_self]

/-- The CPUs and the flag of every answer are the same after any number of calls. -/
theorem mergeTimes_binding {k : ℕ} (hk : 1 ≤ k) :
    binding (mergeTimes parse data k cfg) topo pkg thread = binding (mergeTimes parse data 1 cfg) topo pkg thread :=
  binding_congr fun r => by rw [mem_mergeTimes_rules hk, mem_mergeTimes_rules le_rfl]

/-! ### The directory -/

theorem packageRules_mergeTimes (k : ℕ) (cfg : AppConfig) (pkg : Str) :
    packageRules (mergeTimes parse data k cfg).rules pkg = packageRules cfg.rules pkg ++
      (List.replicate k (packageRules (mergedRules parse data) pkg)).flatten := by
  rw [mergeTimes_rules, packageRules_append]
  congr 1
  induction k with
  | zero => rfl
  | succ k ih =>
      rw [List.replicate_succ, List.replicate_succ, List.flatten_cons, List.flatten_cons, packageRules_append, ih]

theorem fallbackDir_of_two_le {mk : DirCall → Bool} {l : List Rule} (h : 2 ≤ l.length) :
    fallbackDir mk topo l = [] := by
  match l, h with
  | _ :: _ :: _, _ => rfl

/-- A cached package whose only package-level rule is the cached one denotes no CPU. -/
def DirSettled (parse : Str → Option JsonValue) (data : Option Str) (cfg : AppConfig) : Prop :=
  ∀ r ∈ mergedRules parse data, packageRules (cfg.rules ++ mergedRules parse data) r.pkg = [r] →
    fromRange r.cpus = CpuSet.new

theorem DirSettled.fallbackDir_eq (h : DirSettled parse data cfg) (mk : DirCall → Bool) {k : ℕ} (hk : 1 ≤ k)
    (hne : unionCpus (packageRules (mergeTimes parse data 1 cfg).rules pkg) ≠ CpuSet.new) :
    fallbackDir mk topo (packageRules (mergeTimes parse data k cfg).rules pkg) =
      fallbackDir mk topo (packageRules (mergeTimes parse data 1 cfg).rules pkg) := by
  have hone : packageRules (mergeTimes parse data 1 cfg).rules pkg =
      packageRules (cfg.rules ++ mergedRules parse data) pkg := by
    rw [packageRules_mergeTimes, packageRules_append]
    simp
  rw [hone] at hne ⊢
  rw [packageRules_mergeTimes, packageRules_append]
  cases hR : packageRules (mergedRules parse data) pkg with
  | nil => simp
  | cons r rest =>
      rw [packageRules_append, hR] at hne
      have hr : r ∈ packageRules (mergedRules parse data) pkg := by
        rw [hR]
        exact List.mem_cons_self
      obtain ⟨hmem, rfl, -⟩ := mem_packageRules.mp hr
      have htwo : 2 ≤ (packageRules cfg.rules r.pkg ++ r :: rest).length := by
        by_contra hlt
        rw [List.length_append, List.length_cons] at hlt
        have hcfg : packageRules cfg.rules r.pkg = [] := List.length_eq_zero_iff.mp (by omega)
        have hrest : rest = [] := List.length_eq_zero_iff.mp (by omega)
        rw [hcfg, hrest, List.nil_append] at hne
        have hsingle : packageRules (cfg.rules ++ mergedRules parse data) r.pkg = [r] := by
          rw [packageRules_append, hcfg, hR, hrest]
          rfl
        exact hne (unionCpus_eq_new.mpr fun u hu => List.mem_singleton.mp hu ▸ h r hmem hsingle)
      have htwo' : 2 ≤ (packageRules cfg.rules r.pkg ++ (List.replicate k (r :: rest)).flatten).length := by
        obtain ⟨j, rfl⟩ := Nat.exists_eq_add_of_le hk
        rw [Nat.add_comm, List.replicate_succ, List.flatten_cons, ← List.append_assoc, List.length_append]
        omega
      rw [fallbackDir_of_two_le htwo, fallbackDir_of_two_le htwo']

/-- **When every answer is the same after any number of calls**, its directory included. -/
theorem mergeTimes_affinity_iff (parse : Str → Option JsonValue) (data : Option Str) (cfg : AppConfig) :
    (∀ k, 1 ≤ k → ∀ topo : CpuTopology, topo.cpusetEnabled = true → ∀ pkg thread,
      threadAffinity (fun _ => true) pkg thread (mergeTimes parse data k cfg) topo =
        threadAffinity (fun _ => true) pkg thread (mergeTimes parse data 1 cfg) topo) ↔
    DirSettled parse data cfg := by
  constructor
  · intro h r hr hsingle
    by_contra hne
    have hdir : r.cpusetDir = [] := (mergedRules_spec hr).1
    have hcons : packageRules cfg.rules r.pkg = [] ∧ packageRules (mergedRules parse data) r.pkg = [r] := by
      rw [packageRules_append] at hsingle
      have hmem : packageRules (mergedRules parse data) r.pkg ≠ [] := by
        obtain ⟨-, r', hr', hp, ht⟩ := mergedRules_spec hr
        exact List.ne_nil_of_mem (mem_packageRules.mpr ⟨hr', hp, ht⟩)
      rcases List.append_eq_singleton_iff.mp hsingle with ⟨h₁, h₂⟩ | ⟨-, h₂⟩
      · exact ⟨h₁, h₂⟩
      · exact absurd h₂ hmem
    have hrun : ∀ k, packageRules (mergeTimes parse data k cfg).rules r.pkg = List.replicate k r := by
      intro k
      rw [packageRules_mergeTimes, hcons.1, hcons.2, List.nil_append]
      simp
    have hT : ∀ k, threadRules (mergeTimes parse data k cfg).rules r.pkg [] = [] := fun k => threadRules_nil _ _
    have hunion : ∀ k, unionCpus (governingRules (mergeTimes parse data (k + 1) cfg).rules r.pkg []) ≠ CpuSet.new := by
      intro k
      unfold governingRules
      rw [if_pos (hT _), hrun]
      exact unionCpus_ne_new (List.mem_replicate.mpr ⟨Nat.succ_ne_zero k, rfl⟩) hne
    have heq := h 2 (by decide) cpusetDevice rfl r.pkg []
    rw [threadAffinity_eq, threadAffinity_eq, if_neg (hunion 1), if_neg (hunion 0), if_pos (hT 2), if_pos (hT 1),
      hrun, hrun] at heq
    have hname := congrArg (fun o : Option AffinityResult => o.map AffinityResult.cpusetDir) heq
    have hcreated : (fromRange r.cpus).toRangeString = [] := by
      simpa [fallbackDir, ruleDir, hdir, ensureCpusetDir, cpusetDevice, List.replicate, CpuSet.new_or, cpusetFromRule]
        using hname
    exact hne (CpuSet.toRangeString_eq_nil.mp hcreated)
  · intro h k hk topo _ pkg thread
    have hmem : ∀ r, r ∈ (mergeTimes parse data k cfg).rules ↔ r ∈ (mergeTimes parse data 1 cfg).rules := by
      intro r
      rw [mem_mergeTimes_rules hk, mem_mergeTimes_rules le_rfl]
    have hT := @mem_threadRules_congr (mergeTimes parse data k cfg) pkg thread (mergeTimes parse data 1 cfg) hmem
    have hnil := eq_nil_congr hT
    have hflag : (threadRules (mergeTimes parse data k cfg).rules pkg thread != []) =
        (threadRules (mergeTimes parse data 1 cfg).rules pkg thread != []) := by
      rw [Bool.eq_iff_iff, bne_iff_ne, bne_iff_ne, ne_eq, ne_eq, hnil]
    rw [threadAffinity_eq, threadAffinity_eq, unionCpus_governingRules_congr hmem, pkgHasThreadRules_congr hmem, hflag]
    by_cases hu : unionCpus (governingRules (mergeTimes parse data 1 cfg).rules pkg thread) = CpuSet.new
    · rw [if_pos hu, if_pos hu]
    rw [if_neg hu, if_neg hu]
    by_cases hT₁ : threadRules (mergeTimes parse data 1 cfg).rules pkg thread = []
    · unfold governingRules at hu
      rw [if_pos hT₁] at hu
      rw [if_pos hT₁, if_pos (hnil.mpr hT₁), h.fallbackDir_eq (fun _ => true) hk hu]
    · rw [if_neg hT₁, if_neg (fun h' => hT₁ (hnil.mp h')), unionCpus_congr hT]

/-! ### Idempotence -/

/-- Two configurations match alike: the same names are configured, every answer is the same
with cpusets on and all directories created, and each package has as many rules. -/
structure SameMatching (cfg cfg' : AppConfig) : Prop where
  pkgSet : ∀ n, n ∈ cfg.pkgSet ↔ n ∈ cfg'.pkgSet
  affinity : ∀ topo : CpuTopology, topo.cpusetEnabled = true → ∀ pkg thread,
    threadAffinity (fun _ => true) pkg thread cfg topo = threadAffinity (fun _ => true) pkg thread cfg' topo
  ruleCount : ∀ pkg, cfg.rules.countP (·.pkg == pkg) = cfg'.rules.countP (·.pkg == pkg)

theorem mergeCache_of_nil (h : cacheEntries parse data = []) (cfg : AppConfig) : cfg.mergeCache parse data = cfg := by
  have hrules : (cfg.mergeCache parse data).rules = cfg.rules := by
    rw [mergeCache_rules, mergedRules_eq_nil.mpr h, List.append_nil]
  have hset : (cfg.mergeCache parse data).pkgSet = cfg.pkgSet := by
    rw [mergeCache_pkgSet, h]
    rfl
  show ({ cfg with pkgSet := (cfg.mergeCache parse data).pkgSet, rules := (cfg.mergeCache parse data).rules } :
    AppConfig) = cfg
  rw [hrules, hset]

/-- **Merging is idempotent exactly when the cache file adds nothing.** -/
theorem mergeTimes_idempotent_iff (parse : Str → Option JsonValue) (data : Option Str) (cfg : AppConfig) :
    (∀ k, 1 ≤ k → SameMatching (mergeTimes parse data k cfg) (mergeTimes parse data 1 cfg)) ↔
      cacheEntries parse data = [] := by
  constructor
  · intro h
    rw [← mergedRules_eq_nil, List.eq_nil_iff_forall_not_mem]
    intro r hr
    have hcount := (h 2 (by decide)).ruleCount r.pkg
    have hpos : 0 < (mergedRules parse data).countP (·.pkg == r.pkg) :=
      List.countP_pos_iff.mpr ⟨r, hr, beq_self_eq_true _⟩
    rw [mergeTimes_rules, mergeTimes_rules] at hcount
    simp only [List.replicate, List.flatten_cons, List.flatten_nil, List.append_nil, List.countP_append] at hcount
    omega
  · intro h k _
    have hsame : ∀ k, mergeTimes parse data k cfg = cfg := by
      intro k
      induction k with
      | zero => rfl
      | succ k ih => rw [mergeTimes_succ, mergeCache_of_nil h, ih]
    rw [hsame, hsame]
    exact ⟨fun _ => Iff.rfl, fun _ _ _ _ => rfl, fun _ => rfl⟩

/-- A cache file with one application. -/
def oneCached : Str × JsonValue :=
  ("[\x7b\"packages\":[\"com.a\"],\"cpuset\":\x7b\"other\":\"0-3\"\x7d\x7d]".toList,
    .array [plainEntry ["com.a".toList] "0-3".toList])

/-- The second merge of one cached application doubles its rules and takes its directory away. -/
theorem second_merge_differs :
    let cfg : AppConfig := { oneRule with rules := [], pkgSet := KeySet.empty }
    ¬ (∀ k, 1 ≤ k → SameMatching (mergeTimes (parseOf [oneCached]) (some oneCached.1) k cfg)
        (mergeTimes (parseOf [oneCached]) (some oneCached.1) 1 cfg)) ∧
      (threadAffinity (fun _ => true) "com.a".toList [] (mergeTimes (parseOf [oneCached]) (some oneCached.1) 1 cfg)
        cpusetDevice).map (·.cpusetDir) = some "0-3".toList ∧
      (threadAffinity (fun _ => true) "com.a".toList [] (mergeTimes (parseOf [oneCached]) (some oneCached.1) 2 cfg)
        cpusetDevice).map (·.cpusetDir) = some [] := by
  refine ⟨fun h => ?_, by decide +kernel, by decide +kernel⟩
  have hcount := (h 2 (by decide)).ruleCount "com.a".toList
  revert hcount
  decide +kernel

end AetherOptExt
