import AetherOptExt.Daemon

/-! # Entries of the configuration and the names they govern

An entry of the file lists package names and CPU sets.  The loader registers every name but
makes the rules under the first one, and the matcher compares package names for equality; so a
name that is not the first of an entry has no rule of its own (`binding_of_no_lines`).

A rule is compared through its `line`: package, thread and CPU text.  `Configured entries cfg`
lists how a configuration comes to be, by loading the file and by merging the cache, and
`Configured.lines` gives its rules from the entries.  The two results say exactly when a
further name of an entry (`entry_names_agree_iff`), and a process name selected by a
configured one (`selected_governed_iff`), is bound like the name that carries the rules. -/

namespace AetherOptExt

/-- What the matcher reads of a rule. -/
def Rule.line (r : Rule) : Str × Str × Str := (r.pkg, r.thread, r.cpus)

/-- The lines of the rules made of one entry. -/
def entryLines (e : JsonValue) : List (Str × Str × Str) :=
  match entryPackages e with
  | [] => []
  | first :: _ => (first, [], entryOther e) :: (entryComm e).map (fun cn => (first, cn.2, cn.1))

/-- The entries of a cache file that `merge` takes, given the names already seen. -/
def mergedEntries : List JsonValue → KeySet Str → List JsonValue
  | [], _ => []
  | e :: es, seen =>
      match entryPackages e with
      | [] => mergedEntries es seen
      | first :: _ => if first ∈ seen then mergedEntries es seen else e :: mergedEntries es (seen.insert first)

/-- How a configuration comes to be, and the entries its rules are made of. -/
inductive Configured (parse : Str → Option JsonValue) : List JsonValue → AppConfig → Prop
  | load {mk : ℕ → DirCall → Bool} {topo : CpuTopology} {text : Str} {root : JsonValue} {mtime : Option ℕ}
      {entries : List JsonValue} {ebpf : Bool} {cfg : AppConfig}
      (hp : parse text = some root) (hr : loadRoot root = some (entries, ebpf))
      (h : AppConfig.load parse mk topo (some text) mtime = some cfg) : Configured parse entries cfg
  | skip {data : Option Str} {entries : List JsonValue} {cfg : AppConfig} (h : Configured parse entries cfg)
      (hd : ∀ root, data.bind parse = some root → root.isArray = false) :
      Configured parse entries (cfg.mergeCache parse data)
  | merge {data : Option Str} {root : JsonValue} {entries : List JsonValue} {cfg : AppConfig}
      (h : Configured parse entries cfg) (hd : data.bind parse = some root) (ha : root.isArray = true) :
      Configured parse (entries ++ mergedEntries root.members KeySet.empty) (cfg.mergeCache parse data)

/-! ### The rules of a configuration -/

theorem foldl_loadEntry_lines (mk : ℕ → DirCall → Bool) (topo : CpuTopology) :
    ∀ (entries : List JsonValue) (acc : Loaded),
      (entries.foldl (loadEntry mk topo) acc).rules.map Rule.line =
        acc.rules.map Rule.line ++ entries.flatMap entryLines
  | [], acc => by simp
  | e :: entries, acc => by
      rw [List.foldl_cons, foldl_loadEntry_lines mk topo entries, List.flatMap_cons, ← List.append_assoc]
      congr 1
      unfold loadEntry entryLines
      cases entryPackages e with
      | nil => simp
      | cons first rest =>
          simp only [List.map_append, List.map_cons, List.map_map]
          rfl

theorem mem_foldl_loadEntry_pkgSet (mk : ℕ → DirCall → Bool) (topo : CpuTopology) {n : Str} :
    ∀ (entries : List JsonValue) (acc : Loaded),
      n ∈ (entries.foldl (loadEntry mk topo) acc).pkgSet ↔ n ∈ acc.pkgSet ∨ ∃ e ∈ entries, n ∈ entryPackages e
  | [], acc => by simp
  | e :: entries, acc => by
      rw [List.foldl_cons, mem_foldl_loadEntry_pkgSet mk topo entries]
      have hone : n ∈ (loadEntry mk topo acc e).pkgSet ↔ n ∈ acc.pkgSet ∨ n ∈ entryPackages e := by
        unfold loadEntry
        cases entryPackages e with
        | nil => simp
        | cons first rest => exact KeySet.mem_foldl_insert.trans or_comm
      rw [hone, or_assoc, List.exists_mem_cons_iff]

theorem foldl_mergeEntry_lines : ∀ (entries : List JsonValue) (acc : cache.Merged),
    (entries.foldl cache.mergeEntry acc).rules.map Rule.line =
      acc.rules.map Rule.line ++ (mergedEntries entries acc.seenPkgs).flatMap entryLines
  | [], acc => by simp [mergedEntries]
  | e :: entries, acc => by
      rw [List.foldl_cons, foldl_mergeEntry_lines entries]
      cases hp : entryPackages e with
      | nil => simp only [cache.mergeEntry, mergedEntries, hp]
      | cons first rest =>
          simp only [cache.mergeEntry, mergedEntries, hp]
          split_ifs with hs
          · rfl
          · rw [List.flatMap_cons, ← List.append_assoc]
            congr 1
            simp only [List.map_append, List.map_cons, List.map_map, entryLines, hp]
            rfl

theorem mem_foldl_mergeEntry_set {n : Str} : ∀ (entries : List JsonValue) (acc : cache.Merged),
    n ∈ (entries.foldl cache.mergeEntry acc).set ↔
      n ∈ acc.set ∨ ∃ e ∈ mergedEntries entries acc.seenPkgs, n ∈ entryPackages e
  | [], acc => by simp [mergedEntries]
  | e :: entries, acc => by
      rw [List.foldl_cons, mem_foldl_mergeEntry_set entries]
      cases hp : entryPackages e with
      | nil => simp only [cache.mergeEntry, mergedEntries, hp]
      | cons first rest =>
          simp only [cache.mergeEntry, mergedEntries, hp]
          split_ifs with hs
          · rfl
          · rw [KeySet.mem_foldl_insert, List.exists_mem_cons_iff, hp, or_comm (a := n ∈ first :: rest), or_assoc]

section

variable {parse : Str → Option JsonValue} {entries : List JsonValue} {cfg : AppConfig}

theorem load_eq {mk : ℕ → DirCall → Bool} {topo : CpuTopology} {text : Str} {root : JsonValue} {mtime : Option ℕ}
    {ebpf : Bool} (hp : parse text = some root) (hr : loadRoot root = some (entries, ebpf))
    (h : AppConfig.load parse mk topo (some text) mtime = some cfg) :
    ∃ t, cfg = AppConfig.ofLoaded topo (entries.foldl (loadEntry mk topo) ⟨[], KeySet.empty, [], []⟩, ebpf) t := by
  simp only [AppConfig.load, loadParse, Option.bind_eq_bind, Option.bind_some, hp, hr, Option.pure_def,
    Option.bind_eq_some_iff, Option.some.injEq] at h
  obtain ⟨t, -, rfl⟩ := h
  exact ⟨t, rfl⟩

/-- The lines of a configuration's rules are those of its entries, in order. -/
theorem Configured.lines (h : Configured parse entries cfg) :
    cfg.rules.map Rule.line = entries.flatMap entryLines := by
  induction h with
  | load hp hr h =>
      obtain ⟨t, rfl⟩ := load_eq hp hr h
      exact foldl_loadEntry_lines _ _ _ _
  | @skip data _ _ _ hd ih =>
      unfold AppConfig.mergeCache cache.merge
      cases hroot : data.bind parse with
      | none => exact ih
      | some root => simpa [hd root hroot] using ih
  | merge h hd ha ih =>
      unfold AppConfig.mergeCache cache.merge
      rw [List.flatMap_append, ← ih]
      simp only [hd, ha, if_true]
      exact foldl_mergeEntry_lines _ _

/-- The configured names are those of its entries. -/
theorem Configured.mem_pkgSet (h : Configured parse entries cfg) {n : Str} :
    n ∈ cfg.pkgSet ↔ ∃ e ∈ entries, n ∈ entryPackages e := by
  induction h with
  | load hp hr h =>
      obtain ⟨t, rfl⟩ := load_eq hp hr h
      refine (mem_foldl_loadEntry_pkgSet _ _ _ _).trans ?_
      simp
  | @skip data _ _ _ hd ih =>
      unfold AppConfig.mergeCache cache.merge
      cases hroot : data.bind parse with
      | none => exact ih
      | some root => simpa [hd root hroot] using ih
  | merge h hd ha ih =>
      unfold AppConfig.mergeCache cache.merge
      simp only [hd, ha, if_true, List.mem_append, or_and_right, exists_or]
      rw [mem_foldl_mergeEntry_set, ih]

end

/-! ### What an entry denotes -/

/-- The CPUs a list of CPU texts denotes. -/
def unionTexts (texts : List Str) : CpuSet := texts.foldl (fun s t => s.or (fromRange t)) CpuSet.new

/-- The CPU texts of the thread patterns of an entry that match a thread. -/
def matchingTexts (e : JsonValue) (thread : Str) : List Str :=
  ((entryComm e).filter (fun cn => !cn.2.isEmpty && !thread.isEmpty && fnmatch cn.2 thread)).map Prod.fst

/-- The CPU texts of an entry for threads without a pattern: `other`, and those listed under
the empty name. -/
def otherTexts (e : JsonValue) : List Str :=
  entryOther e :: ((entryComm e).filter (fun cn => cn.2.isEmpty)).map Prod.fst

/-- The CPUs an entry gives to a thread. -/
def entryCpus (e : JsonValue) (thread : Str) : CpuSet :=
  unionTexts (if matchingTexts e thread = [] then otherTexts e else matchingTexts e thread)

theorem unionCpus_eq_unionTexts (rules : List Rule) : unionCpus rules = unionTexts (rules.map Rule.cpus) := by
  unfold unionCpus unionTexts
  rw [List.foldl_map]
  rfl

/-- The CPU texts of the rules that a test of package and thread selects. -/
theorem filter_cpus (rules : List Rule) (f : Str → Str → Bool) :
    (rules.filter (fun r => f r.pkg r.thread)).map Rule.cpus =
      ((rules.map Rule.line).filter (fun l => f l.1 l.2.1)).map (fun l => l.2.2) := by
  rw [List.filter_map, List.map_map]
  rfl

/-- Of an entry whose first name is `k`, the lines of `k` that a test of the thread selects. -/
theorem filter_entryLines {e : JsonValue} {k : Str} (h : (entryPackages e).head? = some k) (f : Str → Bool) :
    ((entryLines e).filter (fun l => l.1 == k && f l.2.1)).map (fun l => l.2.2) =
      (if f [] then [entryOther e] else []) ++ ((entryComm e).filter (fun cn => f cn.2)).map Prod.fst := by
  unfold entryLines
  cases hp : entryPackages e with
  | nil => simp [hp] at h
  | cons first rest =>
      obtain rfl : first = k := by simpa [hp] using h
      rw [List.filter_cons, List.filter_map]
      simp only [beq_self_eq_true, Bool.true_and]
      split_ifs
      · simp only [List.map_cons, List.map_map, List.singleton_append]
        congr 2
        exact List.filter_congr fun cn _ => by simp
      · simp only [List.map_map, List.nil_append]
        congr 1
        exact List.filter_congr fun cn _ => by simp

/-- An entry with another first name has no line of `k`. -/
theorem filter_entryLines_ne {e : JsonValue} {k : Str} (h : (entryPackages e).head? ≠ some k) (f : Str → Bool) :
    (entryLines e).filter (fun l => l.1 == k && f l.2.1) = [] := by
  unfold entryLines
  cases hp : entryPackages e with
  | nil => rfl
  | cons first rest =>
      have hne : first ≠ k := fun he => h (by rw [hp, he]; rfl)
      rw [List.filter_eq_nil_iff]
      intro l hl
      obtain rfl | ⟨cn, -, rfl⟩ := (List.mem_cons.mp hl).imp_right List.mem_map.mp
      · simp [hne]
      · simp [hne]

/-- Of a list of entries of which one alone has the first name `k`, the lines of `k`. -/
theorem filter_lines_unique {pre post : List JsonValue} {e : JsonValue} {k : Str}
    (h : ∀ e' ∈ pre ++ post, (entryPackages e').head? ≠ some k) (f : Str → Bool) :
    ((pre ++ e :: post).flatMap entryLines).filter (fun l => l.1 == k && f l.2.1) =
      (entryLines e).filter (fun l => l.1 == k && f l.2.1) := by
  have hnil : ∀ es : List JsonValue, (∀ e' ∈ es, (entryPackages e').head? ≠ some k) →
      (es.flatMap entryLines).filter (fun l => l.1 == k && f l.2.1) = [] := by
    intro es
    induction es with
    | nil => exact fun _ => rfl
    | cons e' es ih =>
        intro hes
        rw [List.flatMap_cons, List.filter_append, filter_entryLines_ne (hes e' List.mem_cons_self),
          ih fun u hu => hes u (List.mem_cons_of_mem e' hu)]
        rfl
  rw [List.flatMap_append, List.flatMap_cons, List.filter_append, List.filter_append,
    hnil pre fun u hu => h u (List.mem_append_left post hu),
    hnil post fun u hu => h u (List.mem_append_right pre hu), List.nil_append, List.append_nil]

/-! ### What binds a name -/

section

variable {cfg : AppConfig} {topo : CpuTopology} {pre post : List JsonValue} {e : JsonValue} {k q thread : Str}

/-- A name without a rule of its own gets every present CPU when some thread rule's package
pattern covers it, and nothing otherwise. -/
theorem binding_of_no_lines (h : ∀ r ∈ cfg.rules, r.pkg ≠ q) :
    binding cfg topo q thread = if cfg.pkgHasThreadRules q then some (topo.presentCpus, false) else none := by
  have ht : threadRules cfg.rules q thread = [] := by
    rw [threadRules, List.filter_eq_nil_iff]
    intro r hr
    simp [h r hr]
  have hp : packageRules cfg.rules q = [] := by
    rw [packageRules, List.filter_eq_nil_iff]
    intro r hr
    simp [h r hr]
  unfold binding governingRules
  simp only [ht, hp, if_true, unionCpus_nil]

/-- The thread rules of a name that heads one entry are the entry's matching patterns. -/
theorem threadRules_texts (hl : cfg.rules.map Rule.line = (pre ++ e :: post).flatMap entryLines)
    (hk : (entryPackages e).head? = some k) (hu : ∀ e' ∈ pre ++ post, (entryPackages e').head? ≠ some k) :
    (threadRules cfg.rules k thread).map Rule.cpus = matchingTexts e thread := by
  have hf := filter_cpus cfg.rules
    (fun p t => p == k && (!t.isEmpty && !thread.isEmpty && fnmatch t thread))
  rw [hl, filter_lines_unique hu (fun t => !t.isEmpty && !thread.isEmpty && fnmatch t thread),
    filter_entryLines hk (fun t => !t.isEmpty && !thread.isEmpty && fnmatch t thread)] at hf
  rw [threadRules, matchingTexts]
  simp only [Bool.and_assoc] at hf ⊢
  simpa using hf

/-- Its package-level rules are `other` and the patterns without a name. -/
theorem packageRules_texts (hl : cfg.rules.map Rule.line = (pre ++ e :: post).flatMap entryLines)
    (hk : (entryPackages e).head? = some k) (hu : ∀ e' ∈ pre ++ post, (entryPackages e').head? ≠ some k) :
    (packageRules cfg.rules k).map Rule.cpus = otherTexts e := by
  have hf := filter_cpus cfg.rules (fun p t => p == k && t.isEmpty)
  rw [hl, filter_lines_unique hu (fun t => t.isEmpty), filter_entryLines hk (fun t => t.isEmpty)] at hf
  rw [packageRules, hf]
  rfl

/-- What a name that heads one entry is bound to, read off the entry. -/
theorem binding_of_entry (hl : cfg.rules.map Rule.line = (pre ++ e :: post).flatMap entryLines)
    (hk : (entryPackages e).head? = some k) (hu : ∀ e' ∈ pre ++ post, (entryPackages e').head? ≠ some k) :
    binding cfg topo k thread =
      if entryCpus e thread = CpuSet.new then
        if cfg.pkgHasThreadRules k then some (topo.presentCpus, false) else none
      else some (entryCpus e thread, matchingTexts e thread != []) := by
  have ht : (threadRules cfg.rules k thread).map Rule.cpus = matchingTexts e thread := threadRules_texts hl hk hu
  have hp := packageRules_texts hl hk hu
  have hnil : threadRules cfg.rules k thread = [] ↔ matchingTexts e thread = [] := by
    rw [← ht, List.map_eq_nil_iff]
  have hcpus : unionCpus (governingRules cfg.rules k thread) = entryCpus e thread := by
    unfold governingRules entryCpus
    rw [unionCpus_eq_unionTexts]
    by_cases hn : matchingTexts e thread = []
    · rw [if_pos (hnil.mpr hn), if_pos hn, hp]
    · rw [if_neg (fun h => hn (hnil.mp h)), if_neg hn, ht]
  have hflag : (threadRules cfg.rules k thread != []) = (matchingTexts e thread != []) := by
    rw [Bool.eq_iff_iff, bne_iff_ne, bne_iff_ne, ne_eq, ne_eq, hnil]
  unfold binding
  simp only [hcpus, hflag]

end

/-- The two answers name the same CPUs and make the same distinction. -/
def SameBinding (o o' : Option AffinityResult) : Prop :=
  o.map AffinityResult.binding = o'.map AffinityResult.binding

instance (o o' : Option AffinityResult) : Decidable (SameBinding o o') :=
  inferInstanceAs (Decidable (_ = _))

/-- When a name `q` without rules of its own is bound as the name `k` that heads the entry
`e`.  A name that a thread rule covers gets every present CPU: that is right when `e` denotes no
CPU and `k` is covered too, or when no pattern of `e` matches and its other CPUs are all the
present ones.  A name that is not covered gets nothing: that is right when `e` denotes no CPU
and `k` is not covered. -/
def GovernedAlike (cfg : AppConfig) (e : JsonValue) (k q thread : Str) : Prop :=
  q = k ∨
    if cfg.pkgHasThreadRules q then
      (entryCpus e thread = CpuSet.new ∧ cfg.pkgHasThreadRules k = true) ∨
        (entryCpus e thread ≠ CpuSet.new ∧ matchingTexts e thread = [] ∧ entryCpus e thread = cfg.topo.presentCpus)
    else entryCpus e thread = CpuSet.new ∧ cfg.pkgHasThreadRules k = false

section

variable {cfg : AppConfig} {pre post : List JsonValue} {e : JsonValue} {k q thread : Str}

theorem sameBinding_iff_governedAlike (hl : cfg.rules.map Rule.line = (pre ++ e :: post).flatMap entryLines)
    (hk : (entryPackages e).head? = some k) (hu : ∀ e' ∈ pre ++ post, (entryPackages e').head? ≠ some k)
    (hq : q ≠ k → ∀ r ∈ cfg.rules, r.pkg ≠ q) (mk mk' : DirCall → Bool) :
    SameBinding (threadAffinity mk q thread cfg cfg.topo) (threadAffinity mk' k thread cfg cfg.topo) ↔
      GovernedAlike cfg e k q thread := by
  unfold SameBinding GovernedAlike
  rw [threadAffinity_binding, threadAffinity_binding]
  rcases eq_or_ne q k with rfl | hne
  · exact iff_of_true rfl (Or.inl rfl)
  rw [binding_of_no_lines (hq hne), binding_of_entry hl hk hu, or_iff_right hne]
  cases hcq : cfg.pkgHasThreadRules q with
  | true =>
      simp only [if_true]
      by_cases hn : entryCpus e thread = CpuSet.new
      · cases hck : cfg.pkgHasThreadRules k with
        | true => simp [hn]
        | false => simp [hn]
      · simp only [hn, if_false, false_and, false_or, not_false_eq_true, true_and, ne_eq, Option.some.injEq,
          Prod.mk.injEq]
        constructor
        · rintro ⟨hcpus, hflag⟩
          refine ⟨?_, hcpus.symm⟩
          by_contra hm
          rw [eq_comm, bne_eq_false_iff_eq] at hflag
          exact hm hflag
        · rintro ⟨hm, hcpus⟩
          exact ⟨hcpus.symm, by simp [hm]⟩
  | false =>
      simp only [Bool.false_eq_true, if_false]
      by_cases hn : entryCpus e thread = CpuSet.new
      · cases hck : cfg.pkgHasThreadRules k with
        | true => simp [hn]
        | false => simp [hn]
      · simp [hn]

end

/-- A configured name's rules come from an entry that it heads. -/
theorem Configured.head_of_rule {parse : Str → Option JsonValue} {entries : List JsonValue} {cfg : AppConfig}
    (h : Configured parse entries cfg) {r : Rule} (hr : r ∈ cfg.rules) :
    ∃ e ∈ entries, (entryPackages e).head? = some r.pkg := by
  have hm : r.line ∈ cfg.rules.map Rule.line := List.mem_map_of_mem hr
  rw [h.lines, List.mem_flatMap] at hm
  obtain ⟨e, he, hline⟩ := hm
  refine ⟨e, he, ?_⟩
  unfold entryLines at hline
  cases hp : entryPackages e with
  | nil => simp [hp] at hline
  | cons first rest =>
      rw [hp] at hline
      rcases List.mem_cons.mp hline with hline | hline
      · exact congrArg some (congrArg Prod.fst hline).symm
      · obtain ⟨cn, -, hcn⟩ := List.mem_map.mp hline
        exact congrArg some (congrArg Prod.fst hcn)

/-! ### Further names of an entry -/

/-- **When a name of an entry is bound like the entry's first name.** -/
theorem entry_names_agree_iff (parse : Str → Option JsonValue) (mk : ℕ → DirCall → Bool) (topo : CpuTopology)
    (text : Str) (root : JsonValue) (mtime : Option ℕ) (entries : List JsonValue) (ebpf : Bool) (cfg : AppConfig)
    (hparse : parse text = some root) (hroot : loadRoot root = some (entries, ebpf))
    (hload : AppConfig.load parse mk topo (some text) mtime = some cfg)
    (pre post : List JsonValue) (e : JsonValue) (hentries : entries = pre ++ e :: post)
    (p₀ : Str) (ps : List Str) (hnames : entryPackages e = p₀ :: ps)
    (hown : ∀ e' ∈ pre ++ post, ∀ p ∈ p₀ :: ps, p ∉ entryPackages e')
    (p : Str) (hp : p ∈ p₀ :: ps) (c : Str) (mk₁ mk₂ : DirCall → Bool) :
    SameBinding (threadAffinity mk₁ p c cfg cfg.topo) (threadAffinity mk₂ p₀ c cfg cfg.topo) ↔
      GovernedAlike cfg e p₀ p c := by
  have hc : Configured parse entries cfg := .load hparse hroot hload
  have hl := hc.lines
  rw [hentries] at hl
  have hhead : ∀ e' ∈ pre ++ post, ∀ n ∈ p₀ :: ps, (entryPackages e').head? ≠ some n :=
    fun e' he' n hn heq => hown e' he' n hn (List.mem_of_mem_head? heq)
  refine sameBinding_iff_governedAlike hl (by rw [hnames]; rfl) (fun e' he' => hhead e' he' p₀ List.mem_cons_self)
    (fun hne r hr hrp => ?_) mk₁ mk₂
  obtain ⟨e', he', hh⟩ := hc.head_of_rule hr
  rw [hrp] at hh
  rw [hentries] at he'
  rcases List.mem_append.mp he' with he' | he'
  · exact hhead e' (List.mem_append_left post he') p hp hh
  · rcases List.mem_cons.mp he' with rfl | he'
    · rw [hnames] at hh
      exact hne (Option.some.inj hh).symm
    · exact hhead e' (List.mem_append_right pre he') p hp hh

/-- The JSON parser on the texts of some files. -/
def parseOf (files : List (Str × JsonValue)) (text : Str) : Option JsonValue := files.lookup text

theorem parseOf_self (file : Str × JsonValue) : parseOf [file] file.1 = some file.2 := by
  obtain ⟨text, root⟩ := file
  exact List.lookup_cons_self

/-- A file with one entry. -/
def oneEntryFile (entry : JsonValue) : JsonValue := .object [("rules".toList, .array [entry])]

/-- An entry without thread patterns. -/
def plainEntry (names : List Str) (other : Str) : JsonValue :=
  .object [("packages".toList, .array (names.map .string)),
    ("cpuset".toList, .object [("other".toList, .string other)])]

/-- The text of a file with such an entry. -/
def plainText (names : List Str) (other : Str) : Str :=
  "\x7b\"rules\":[\x7b\"packages\":[".toList ++
    ",".toList.intercalate (names.map (fun name => "\"".toList ++ name ++ "\"".toList)) ++
    "],\"cpuset\":\x7b\"other\":\"".toList ++ other ++ "\"\x7d\x7d]\x7d".toList

/-- A device with the CPUs 0 to 7 and without cpusets. -/
def eightCpus : CpuTopology := ⟨fromRange "0-7".toList, ['0'], false⟩

/-- An entry for `com.a` and `com.b`. -/
def twoNames : Str × JsonValue :=
  (plainText ["com.a".toList, "com.b".toList] "0-3".toList,
    oneEntryFile (plainEntry ["com.a".toList, "com.b".toList] "0-3".toList))

/-- Of an entry for `com.a` and `com.b` only the first is bound. -/
theorem second_name_unbound :
    ∃ cfg, AppConfig.load (parseOf [twoNames]) (fun _ _ => false) eightCpus (some twoNames.1) (some 0) = some cfg ∧
      ¬ SameBinding (threadAffinity (fun _ => false) "com.b".toList "main".toList cfg cfg.topo)
        (threadAffinity (fun _ => false) "com.a".toList "main".toList cfg cfg.topo) := by
  refine ⟨_, rfl, ?_⟩
  decide

theorem entry_names_agree_iff_second :
    ∃ cfg, SameBinding (threadAffinity (fun _ => false) "com.b".toList "main".toList cfg cfg.topo)
        (threadAffinity (fun _ => false) "com.a".toList "main".toList cfg cfg.topo) ↔
      GovernedAlike cfg (plainEntry ["com.a".toList, "com.b".toList] "0-3".toList) "com.a".toList "com.b".toList
        "main".toList :=
  ⟨_, entry_names_agree_iff (parseOf [twoNames]) (fun _ _ => false) eightCpus twoNames.1 twoNames.2 (some 0) _ _ _
    rfl rfl rfl [] [] _ rfl "com.a".toList ["com.b".toList] rfl (by simp) "com.b".toList (by simp) "main".toList _ _⟩

/-! ### Names selected by another name -/

/-- A configured name or pattern selects the process name. -/
def Selects (cfg : AppConfig) (k q : Str) : Prop :=
  (k ∈ cfg.pkgSet ∧ (k = q ∨ k = basePkg q)) ∨ (k ∈ cfg.wild ∧ fnmatch k q = true)

/-- The scanners are interested in the names that something selects. -/
theorem interested_iff_selects {cfg : AppConfig} {q : Str} : interested cfg q = true ↔ ∃ k, Selects cfg k q := by
  rw [interested_iff]
  constructor
  · rintro (h | h | ⟨w, hw, h⟩)
    · exact ⟨q, Or.inl ⟨h, Or.inl rfl⟩⟩
    · exact ⟨basePkg q, Or.inl ⟨h, Or.inr rfl⟩⟩
    · exact ⟨w, Or.inr ⟨hw, h⟩⟩
  · rintro ⟨k, ⟨h, rfl | rfl⟩ | ⟨hw, h⟩⟩
    · exact Or.inl h
    · exact Or.inr (Or.inl h)
    · exact Or.inr (Or.inr ⟨k, hw, h⟩)

/-- **When a selected process name is bound like the name that selects it.** -/
theorem selected_governed_iff (parse : Str → Option JsonValue) (entries : List JsonValue) (cfg : AppConfig)
    (hc : Configured parse entries cfg) (pre post : List JsonValue) (e : JsonValue)
    (hentries : entries = pre ++ e :: post) (k : Str) (hk : (entryPackages e).head? = some k)
    (hu : ∀ e' ∈ pre ++ post, (entryPackages e').head? ≠ some k) (q : Str)
    (hsel : ∀ n, Selects cfg n q ↔ n = k) (c : Str) (mk₁ mk₂ : DirCall → Bool) :
    SameBinding (threadAffinity mk₁ q c cfg cfg.topo) (threadAffinity mk₂ k c cfg cfg.topo) ↔
      GovernedAlike cfg e k q c := by
  have hl := hc.lines
  rw [hentries] at hl
  refine sameBinding_iff_governedAlike hl hk hu (fun hne r hr hrq => ?_) mk₁ mk₂
  -- a rule of `q` would make `q` a configured name, which selects itself
  obtain ⟨e', he', hh⟩ := hc.head_of_rule hr
  have hmem : q ∈ cfg.pkgSet := hc.mem_pkgSet.mpr ⟨e', he', by rw [← hrq]; exact List.mem_of_mem_head? hh⟩
  exact hne ((hsel q).mp (Or.inl ⟨hmem, Or.inl rfl⟩))

/-- An entry with the pattern `Main` for CPU 7. -/
def patternEntry (name : Str) : JsonValue :=
  .object [("packages".toList, .array [.string name]),
    ("cpuset".toList, .object [("other".toList, .string "0-3".toList),
      ("comm".toList, .object [("7".toList, .array [.string "Main".toList])])])]

/-- A file with such an entry for `com.game.*`. -/
def gameFile : Str × JsonValue :=
  (("\x7b\"rules\":[\x7b\"packages\":[\"com.game.*\"],\"cpuset\":\x7b\"other\":\"0-3\"," ++
      "\"comm\":\x7b\"7\":[\"Main\"]\x7d\x7d\x7d]\x7d").toList,
    oneEntryFile (patternEntry "com.game.*".toList))

/-- The process `com.game.one`, selected by the entry of `com.game.*` alone, is not bound by
that entry. -/
theorem wildcard_not_governed :
    ∃ cfg, AppConfig.load (parseOf [gameFile]) (fun _ _ => false) eightCpus (some gameFile.1) (some 0) = some cfg ∧
      interested cfg "com.game.one".toList = true ∧
      ¬ SameBinding (threadAffinity (fun _ => false) "com.game.one".toList "Main".toList cfg cfg.topo)
        (threadAffinity (fun _ => false) "com.game.*".toList "Main".toList cfg cfg.topo) := by
  refine ⟨_, rfl, ?_, ?_⟩
  · decide
  · decide

theorem selected_governed_iff_wildcard :
    ∃ cfg, SameBinding (threadAffinity (fun _ => false) "com.game.one".toList "Main".toList cfg cfg.topo)
        (threadAffinity (fun _ => false) "com.game.*".toList "Main".toList cfg cfg.topo) ↔
      GovernedAlike cfg (patternEntry "com.game.*".toList) "com.game.*".toList "com.game.one".toList
        "Main".toList := by
  refine ⟨_, selected_governed_iff (parseOf [gameFile]) [patternEntry "com.game.*".toList] _
    (@Configured.load _ (fun _ _ => false) eightCpus gameFile.1 gameFile.2 (some 0) _ _ _ rfl rfl rfl)
    [] [] _ rfl "com.game.*".toList rfl (by simp) "com.game.one".toList (fun n => ?_) "Main".toList _ _⟩
  constructor
  · rintro (⟨hn, rfl | rfl⟩ | ⟨hn, -⟩)
    · revert hn; decide
    · revert hn; decide
    · exact List.mem_singleton.mp hn
  · rintro rfl
    exact Or.inr ⟨by decide, by decide⟩

end AetherOptExt
