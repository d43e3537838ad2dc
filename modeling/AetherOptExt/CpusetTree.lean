import AetherOptExt.CpusetDirs
import AetherOptExt.Lib.Runs

/-! # The cpuset directories (`cpuset.rs`, `process.rs`)

`create_cpuset_dir` makes a directory, sets its mode and owner and writes its `cpus` and `mems`
files; each of the five calls can fail, and a failure leaves what the calls before it did.  A write
of an empty text opens the file and writes nothing, so what the kernel holds stays.
Here the directories are a state, `CpusetTree`, and the kernel's answers are a parameter of
each operation, so that `mk : DirCall → Bool` of `AetherOptExt.CpuSet` becomes the outcome of
`createCpusetDir` in a tree (`ensureCpusetDirIn_fst`).

A name that `ensure_cpuset_dir` hands out is kept in rules and cache entries for as long as the
daemon runs, while the same directory is created again and again, perhaps without success.
`ensured_dir_stays` says that it stays right, `base_stays` what the base directory holds. -/

namespace AetherOptExt

open CpuSet

/-- What has been written to a directory's `cpus` and `mems`. -/
structure Cpuset where
  cpus : CpuSet
  mems : Str
deriving DecidableEq

/-- The cpuset directories by their paths. -/
abbrev CpusetTree := KeyMap Str Cpuset

/-- The answers of the file system: may the directory be made, its mode and its owner be set, and
the text be written to the file? -/
structure FsAnswers where
  mkdir : Str → Bool
  chmod : Str → Bool
  chown : Str → Bool
  write : Str → Str → Bool

/-- The directory that a path names: slashes at the end do not matter. -/
def dirKey (path : Str) : Str := path.rdropWhile (· == '/')

/-- Every call succeeds. -/
def FsAnswers.allows : FsAnswers := ⟨fun _ => true, fun _ => true, fun _ => true, fun _ _ => true⟩

namespace Cpuset

/-- A text is written to `cpus`. -/
def putCpus (c : Cpuset) (text : Str) : Cpuset := if text.isEmpty then c else { c with cpus := fromRange text }

/-- A text is written to `mems`. -/
def putMems (c : Cpuset) (text : Str) : Cpuset := if text.isEmpty then c else { c with mems := text }

theorem putCpus_cpus {c : Cpuset} {text : Str} (h : text ≠ [] → c.cpus = fromRange text) :
    (c.putCpus text).cpus = c.cpus := by
  unfold putCpus
  split_ifs with he
  · rfl
  · exact (h (by simpa using he)).symm

theorem putCpus_of_ne {c : Cpuset} {text : Str} (h : text ≠ []) : (c.putCpus text).cpus = fromRange text := by
  unfold putCpus
  rw [if_neg (by simpa using h)]

@[simp] theorem putCpus_mems (c : Cpuset) (text : Str) : (c.putCpus text).mems = c.mems := by
  unfold putCpus
  split_ifs
  · rfl
  · rfl

@[simp] theorem putMems_cpus (c : Cpuset) (text : Str) : (c.putMems text).cpus = c.cpus := by
  unfold putMems
  split_ifs
  · rfl
  · rfl

theorem putMems_of_ne {c : Cpuset} {text : Str} (h : text ≠ []) : (c.putMems text).mems = text := by
  unfold putMems
  rw [if_neg (by simpa using h)]

/-- Memory nodes are not taken away. -/
theorem putMems_ne {c : Cpuset} (text : Str) (h : c.mems ≠ []) : (c.putMems text).mems ≠ [] := by
  unfold putMems
  split_ifs with he
  · exact h
  · simpa using he

end Cpuset

namespace CpusetTree

/-- A directory that has just been made. -/
def empty : Cpuset := ⟨CpuSet.new, []⟩

/-- `mkdir`: `none` is a failure other than `EEXIST`. -/
def mkdir (fs : FsAnswers) (tree : CpusetTree) (key : Str) : Option CpusetTree :=
  if key ∈ tree then some tree else if fs.mkdir key then some (tree.insert key empty) else none

/-- What a directory holds, or a new one. -/
def found (tree : CpusetTree) (key : Str) : Cpuset := (tree.lookup key).getD empty

/-- The kernel has taken the text of a `cpus` file. -/
def writeCpus (tree : CpusetTree) (key cpus : Str) : CpusetTree := tree.insert key ((tree.found key).putCpus cpus)

/-- The kernel has taken the text of a `mems` file. -/
def writeMems (tree : CpusetTree) (key mems : Str) : CpusetTree := tree.insert key ((tree.found key).putMems mems)

/-- `fs::write` to a `cpus` file, whose failure is ignored. -/
def tryCpus (fs : FsAnswers) (tree : CpusetTree) (key cpus : Str) : CpusetTree :=
  if key ∈ tree && fs.write (key ++ "/cpus".toList) cpus then tree.writeCpus key cpus else tree

/-- `fs::write` to a `mems` file, whose failure is ignored. -/
def tryMems (fs : FsAnswers) (tree : CpusetTree) (key mems : Str) : CpusetTree :=
  if key ∈ tree && fs.write (key ++ "/mems".toList) mems then tree.writeMems key mems else tree

end CpusetTree

/-- `create_cpuset_dir`. -/
def createCpusetDir (fs : FsAnswers) (tree : CpusetTree) (call : DirCall) : Bool × CpusetTree :=
  let key := dirKey call.path
  match tree.mkdir fs key with
  | none => (false, tree)
  | some tree =>
      if !fs.chmod key then (false, tree)
      else if !fs.chown key then (false, tree)
      else if !fs.write (key ++ "/cpus".toList) call.cpus then (false, tree)
      else
        let tree := tree.writeCpus key call.cpus
        if !fs.write (key ++ "/mems".toList) call.mems then (false, tree) else (true, tree.writeMems key call.mems)

/-- `ensure_cpuset_dir` on the directories. -/
def ensureCpusetDirIn (fs : FsAnswers) (tree : CpusetTree) (cpus : CpuSet) (topo : CpuTopology) : Str × CpusetTree :=
  if !topo.cpusetEnabled then ([], tree)
  else
    let dirName := cpus.toRangeString
    let out := createCpusetDir fs tree (subdirCall dirName topo)
    (if out.1 then dirName else [], out.2)

/-- `init_cpu_topo`: `present` and `mems` are the texts of `/sys/devices/system/cpu/present` and of
the base's `mems`, `none` when they cannot be read; `access` and `open` say whether `/dev/cpuset`
exists and whether the base directory can be opened. -/
def initCpuTopo (fs : FsAnswers) (tree : CpusetTree) (present mems : Option Str) (access openBase : Bool) :
    CpuTopology × CpusetTree :=
  let presentStr := (present.map Str.trim).getD []
  let presentCpus := parseCpuRanges presentStr none
  if !access then (⟨presentCpus, [], false⟩, tree)
  else
    let out := createCpusetDir fs tree ⟨baseCpuset, presentStr, "0".toList⟩
    (⟨presentCpus, (mems.map Str.trim).getD "0".toList, out.1 && openBase⟩, out.2)

/-- `init_cpuset`: the failures of its calls are ignored. -/
def initCpuset (fs : FsAnswers) (tree : CpusetTree) (present rootMems : Option Str) (access : Bool) : CpusetTree :=
  if !access then tree
  else
    let tree := (tree.mkdir fs baseCpuset).getD tree
    let tree := tree.tryCpus fs baseCpuset (Str.trim (present.getD []))
    match rootMems with
    | none => tree
    | some mems => tree.tryMems fs baseCpuset (Str.trim mems)

/-! ### Paths -/

theorem dirKey_base : dirKey baseCpuset = baseCpuset := by decide +kernel

theorem dirKey_base_slash : dirKey (baseCpuset ++ ['/']) = baseCpuset := by decide +kernel

/-- The directory of a set with a CPU has its name below the base. -/
theorem dirKey_subdir {s : CpuSet} (h : s ≠ CpuSet.new) :
    dirKey (baseCpuset ++ '/' :: s.toRangeString) = baseCpuset ++ '/' :: s.toRangeString := by
  have hne : s.toRangeString ≠ [] := fun he => h (toRangeString_eq_nil.mp he)
  have hlast : (s.toRangeString.getLast hne == '/') = false := by
    rcases mem_toRangeString (List.getLast_mem hne) with hd | hd | hd
    · rw [beq_eq_false_iff_ne]
      intro he
      rw [he] at hd
      cases hd
    · rw [hd]
      rfl
    · rw [hd]
      rfl
  unfold dirKey
  rw [List.rdropWhile_eq_self_iff]
  intro hl
  have hlast' : (baseCpuset ++ '/' :: s.toRangeString).getLast hl = s.toRangeString.getLast hne := by
    rw [List.getLast_append_of_ne_nil _ (List.cons_ne_nil _ _), List.getLast_cons hne]
  rw [hlast', hlast]
  decide

theorem subdir_ne_base (name : Str) : baseCpuset ++ '/' :: name ≠ baseCpuset := by simp

theorem toRangeString_injective {s t : CpuSet} (h : s.toRangeString = t.toRangeString) : s = t := by
  rw [← parse_toRangeString s, h, parse_toRangeString]

/-- The directory of one set is created for another set only if they are the same. -/
theorem subdir_eq_dirKey {s t : CpuSet}
    (h : baseCpuset ++ '/' :: s.toRangeString = dirKey (baseCpuset ++ '/' :: t.toRangeString)) : s = t := by
  by_cases ht : t = CpuSet.new
  · rw [ht, toRangeString_eq_nil.mpr rfl, dirKey_base_slash] at h
    exact absurd h (subdir_ne_base _)
  · rw [dirKey_subdir ht] at h
    exact toRangeString_injective (List.cons.inj (List.append_cancel_left h)).2

/-! ### What a creation leaves -/

section

variable {fs : FsAnswers} {tree : CpusetTree} {call : DirCall} {key : Str}

theorem mkdir_case {tree' : CpusetTree} (h : tree.mkdir fs key = some tree') :
    (key ∈ tree ∧ tree' = tree) ∨ (key ∉ tree ∧ tree' = tree.insert key CpusetTree.empty) := by
  unfold CpusetTree.mkdir at h
  split_ifs at h with hk
  · exact Or.inl ⟨hk, (Option.some.inj h).symm⟩
  · exact Or.inr ⟨hk, (Option.some.inj h).symm⟩

/-- What `create_cpuset_dir` can do: nothing, an empty directory, one with its CPUs only, or all. -/
inductive CreateCase (tree : CpusetTree) (call : DirCall) : Bool × CpusetTree → Prop
  | refused : CreateCase tree call (false, tree)
  | bare (h : dirKey call.path ∉ tree) :
      CreateCase tree call (false, tree.insert (dirKey call.path) CpusetTree.empty)
  | half {tree' : CpusetTree}
      (h : ∀ k, tree'.lookup k =
        if k = dirKey call.path then some ((tree.found (dirKey call.path)).putCpus call.cpus) else tree.lookup k) :
      CreateCase tree call (false, tree')
  | done {tree' : CpusetTree}
      (h : ∀ k, tree'.lookup k =
        if k = dirKey call.path then some (((tree.found (dirKey call.path)).putCpus call.cpus).putMems call.mems)
        else tree.lookup k) :
      CreateCase tree call (true, tree')

theorem createCpusetDir_case (fs : FsAnswers) (tree : CpusetTree) (call : DirCall) :
    CreateCase tree call (createCpusetDir fs tree call) := by
  unfold createCpusetDir
  cases hmk : tree.mkdir fs (dirKey call.path) with
  | none =>
      simp only [hmk]
      exact .refused
  | some made =>
      -- the calls after `mkdir` leave the other directories as they are
      have hother : ∀ k, k ≠ dirKey call.path → made.lookup k = tree.lookup k := by
        intro k hk
        rcases mkdir_case hmk with ⟨-, rfl⟩ | ⟨-, rfl⟩
        · rfl
        · rw [KeyMap.lookup_insert, if_neg hk]
      have hfound : made.found (dirKey call.path) = tree.found (dirKey call.path) := by
        rcases mkdir_case hmk with ⟨-, rfl⟩ | ⟨hk, rfl⟩
        · rfl
        · unfold CpusetTree.found
          rw [KeyMap.lookup_insert, if_pos rfl, AList.lookup_eq_none.mpr hk]
          rfl
      have hmade : CreateCase tree call (false, made) := by
        rcases mkdir_case hmk with ⟨-, rfl⟩ | ⟨hk, rfl⟩
        · exact .refused
        · exact .bare hk
      simp only [hmk]
      split_ifs
      · exact hmade
      · exact hmade
      · exact hmade
      · refine .half fun k => ?_
        unfold CpusetTree.writeCpus
        rw [KeyMap.lookup_insert, hfound]
        split_ifs with hk
        · rfl
        · exact hother k hk
      · refine .done fun k => ?_
        have hput : (made.writeCpus (dirKey call.path) call.cpus).found (dirKey call.path) =
            (tree.found (dirKey call.path)).putCpus call.cpus := by
          unfold CpusetTree.writeCpus
          rw [hfound]
          unfold CpusetTree.found
          rw [KeyMap.lookup_insert, if_pos rfl]
          rfl
        unfold CpusetTree.writeMems
        rw [KeyMap.lookup_insert, hput]
        split_ifs with hk
        · rfl
        · unfold CpusetTree.writeCpus
          rw [KeyMap.lookup_insert, if_neg hk]
          exact hother k hk

/-- A directory that has the CPUs of a call keeps them when the call is made again, and it is not
left without memory nodes. -/
theorem createCpusetDir_keeps {c : Cpuset} (hc : tree.lookup key = some c)
    (h : key = dirKey call.path → call.cpus ≠ [] → c.cpus = fromRange call.cpus) :
    ∃ c', (createCpusetDir fs tree call).2.lookup key = some c' ∧ c'.cpus = c.cpus ∧
      (c.mems ≠ [] → c'.mems ≠ []) := by
  have hcase := createCpusetDir_case fs tree call
  have hfound : key = dirKey call.path → tree.found (dirKey call.path) = c := fun he => by
    unfold CpusetTree.found
    rw [← he, hc]
    rfl
  generalize createCpusetDir fs tree call = out at hcase ⊢
  cases hcase with
  | refused => exact ⟨c, hc, rfl, id⟩
  | bare hk =>
      have hne : key ≠ dirKey call.path := fun he => hk (he ▸ KeyMap.mem_of_lookup hc)
      exact ⟨c, by rw [KeyMap.lookup_insert, if_neg hne]; exact hc, rfl, id⟩
  | @half tree' hl =>
      by_cases hkey : key = dirKey call.path
      · rw [hfound hkey] at hl
        refine ⟨_, by rw [hl, if_pos hkey], Cpuset.putCpus_cpus (h hkey), fun hne => ?_⟩
        rw [Cpuset.putCpus_mems]
        exact hne
      · exact ⟨c, by rw [hl, if_neg hkey]; exact hc, rfl, id⟩
  | @done tree' hl =>
      by_cases hkey : key = dirKey call.path
      · rw [hfound hkey] at hl
        refine ⟨_, by rw [hl, if_pos hkey], ?_, fun hne => Cpuset.putMems_ne _ ?_⟩
        · rw [Cpuset.putMems_cpus, Cpuset.putCpus_cpus (h hkey)]
        · rw [Cpuset.putCpus_mems]
          exact hne
      · exact ⟨c, by rw [hl, if_neg hkey]; exact hc, rfl, id⟩

end

/-- In a tree the creations that `ensure_cpuset_dir` asks for have definite outcomes. -/
theorem ensureCpusetDirIn_fst (fs : FsAnswers) (tree : CpusetTree) (cpus : CpuSet) (topo : CpuTopology) :
    (ensureCpusetDirIn fs tree cpus topo).1 =
      (ensureCpusetDir (fun call => (createCpusetDir fs tree call).1) cpus topo).1 := by
  unfold ensureCpusetDirIn ensureCpusetDir
  split_ifs <;> rfl

/-- A name that is handed out is that of a directory with the CPUs asked for. -/
theorem ensureCpusetDirIn_spec {fs : FsAnswers} {tree : CpusetTree} {cpus : CpuSet} {topo : CpuTopology}
    (h : (ensureCpusetDirIn fs tree cpus topo).1 ≠ []) :
    (ensureCpusetDirIn fs tree cpus topo).1 = cpus.toRangeString ∧ cpus ≠ CpuSet.new ∧
      ∃ c, (ensureCpusetDirIn fs tree cpus topo).2.lookup (baseCpuset ++ '/' :: cpus.toRangeString) = some c ∧
        c.cpus = cpus ∧ (topo.memsStr ≠ [] → c.mems = topo.memsStr) := by
  unfold ensureCpusetDirIn at h ⊢
  split_ifs at h ⊢ with he
  · exact absurd rfl h
  · have hcase := createCpusetDir_case fs tree (subdirCall cpus.toRangeString topo)
    simp only at h ⊢
    generalize createCpusetDir fs tree (subdirCall cpus.toRangeString topo) = out at hcase h ⊢
    cases hcase with
    | refused => exact absurd rfl h
    | bare => exact absurd rfl h
    | half => exact absurd rfl h
    | done hl =>
        have hne : cpus ≠ CpuSet.new := by
          rintro rfl
          exact h (toRangeString_eq_nil.mpr rfl)
        have hkey : baseCpuset ++ '/' :: cpus.toRangeString = dirKey (subdirCall cpus.toRangeString topo).path :=
          (dirKey_subdir hne).symm
        have htext : cpus.toRangeString ≠ [] := fun he => hne (toRangeString_eq_nil.mp he)
        refine ⟨rfl, hne, _, (hl _).trans (if_pos hkey), ?_, fun hm => Cpuset.putMems_of_ne hm⟩
        rw [Cpuset.putMems_cpus]
        exact (Cpuset.putCpus_of_ne htext).trans (parse_toRangeString cpus)

theorem ensureCpusetDirIn_keeps (fs : FsAnswers) {tree : CpusetTree} (cpus : CpuSet) (topo : CpuTopology) {key : Str}
    {c : Cpuset} (hc : tree.lookup key = some c)
    (h : key = dirKey (baseCpuset ++ '/' :: cpus.toRangeString) → cpus ≠ CpuSet.new → c.cpus = cpus) :
    ∃ c', (ensureCpusetDirIn fs tree cpus topo).2.lookup key = some c' ∧ c'.cpus = c.cpus ∧
      (c.mems ≠ [] → c'.mems ≠ []) := by
  unfold ensureCpusetDirIn
  split_ifs
  · exact ⟨c, hc, rfl, id⟩
  · refine createCpusetDir_keeps hc fun hk htext => (h hk fun he => htext ?_).trans (parse_toRangeString cpus).symm
    exact toRangeString_eq_nil.mpr he

/-- The base keeps its CPUs: the directory of the empty set is the base itself, and its text is empty. -/
theorem ensureCpusetDirIn_base (fs : FsAnswers) {tree : CpusetTree} (cpus : CpuSet) (topo : CpuTopology) {c : Cpuset}
    (hc : tree.lookup baseCpuset = some c) :
    ∃ c', (ensureCpusetDirIn fs tree cpus topo).2.lookup baseCpuset = some c' ∧ c'.cpus = c.cpus ∧
      (c.mems ≠ [] → c'.mems ≠ []) := by
  refine ensureCpusetDirIn_keeps fs cpus topo hc fun hk hne => ?_
  rw [dirKey_subdir hne] at hk
  exact absurd hk.symm (subdir_ne_base _)

/-! ### `init_cpuset` -/

section

variable (fs : FsAnswers) {tree : CpusetTree} {key : Str} {c : Cpuset}

theorem found_of_lookup (hc : tree.lookup key = some c) : tree.found key = c := by
  unfold CpusetTree.found
  rw [hc]
  rfl

theorem tryCpus_keeps (text : Str) (hc : tree.lookup key = some c)
    (h : key = baseCpuset → text ≠ [] → c.cpus = fromRange text) :
    ∃ c', (tree.tryCpus fs baseCpuset text).lookup key = some c' ∧ c'.cpus = c.cpus := by
  unfold CpusetTree.tryCpus CpusetTree.writeCpus
  split_ifs
  · rw [KeyMap.lookup_insert]
    split_ifs with hk
    · rw [found_of_lookup (hk ▸ hc)]
      exact ⟨_, rfl, Cpuset.putCpus_cpus (h hk)⟩
    · exact ⟨c, hc, rfl⟩
  · exact ⟨c, hc, rfl⟩

theorem tryMems_keeps (text : Str) (hc : tree.lookup key = some c) :
    ∃ c', (tree.tryMems fs baseCpuset text).lookup key = some c' ∧ c'.cpus = c.cpus := by
  unfold CpusetTree.tryMems CpusetTree.writeMems
  split_ifs
  · rw [KeyMap.lookup_insert]
    split_ifs with hk
    · rw [found_of_lookup (hk ▸ hc)]
      exact ⟨_, rfl, Cpuset.putMems_cpus c text⟩
    · exact ⟨c, hc, rfl⟩
  · exact ⟨c, hc, rfl⟩

theorem mkdir_keeps (hc : tree.lookup key = some c) : ((tree.mkdir fs baseCpuset).getD tree).lookup key = some c := by
  cases hmk : tree.mkdir fs baseCpuset with
  | none => exact hc
  | some made =>
      rcases mkdir_case hmk with ⟨-, rfl⟩ | ⟨hn, rfl⟩
      · exact hc
      · show (tree.insert baseCpuset CpusetTree.empty).lookup key = some c
        have hne : key ≠ baseCpuset := fun hk => hn (hk ▸ KeyMap.mem_of_lookup hc)
        rw [KeyMap.lookup_insert, if_neg hne]
        exact hc

/-- `init_cpuset` changes no directory's CPUs, except that the base gets the ones it reads. -/
theorem initCpuset_keeps (present rootMems : Option Str) (access : Bool) (hc : tree.lookup key = some c)
    (h : key = baseCpuset → Str.trim (present.getD []) ≠ [] → c.cpus = fromRange (Str.trim (present.getD []))) :
    ∃ c', (initCpuset fs tree present rootMems access).lookup key = some c' ∧ c'.cpus = c.cpus := by
  unfold initCpuset
  split_ifs
  · exact ⟨c, hc, rfl⟩
  · obtain ⟨c₁, hc₁, he₁⟩ := tryCpus_keeps fs (Str.trim (present.getD [])) (mkdir_keeps fs hc) h
    cases rootMems with
    | none => exact ⟨c₁, hc₁, he₁⟩
    | some mems =>
        obtain ⟨c₂, hc₂, he₂⟩ := tryMems_keeps fs (Str.trim mems) hc₁
        exact ⟨c₂, hc₂, he₂.trans he₁⟩

theorem initCpuset_other (present rootMems : Option Str) (access : Bool) (hkey : key ≠ baseCpuset) :
    (initCpuset fs tree present rootMems access).lookup key = tree.lookup key := by
  have hmkdir : ((tree.mkdir fs baseCpuset).getD tree).lookup key = tree.lookup key := by
    cases hmk : tree.mkdir fs baseCpuset with
    | none => rfl
    | some made =>
        rcases mkdir_case hmk with ⟨-, rfl⟩ | ⟨-, rfl⟩
        · rfl
        · exact (KeyMap.lookup_insert ..).trans (if_neg hkey)
  have hcpus : ∀ (t : CpusetTree) text, (t.tryCpus fs baseCpuset text).lookup key = t.lookup key := by
    intro t text
    unfold CpusetTree.tryCpus CpusetTree.writeCpus
    split_ifs
    · rw [KeyMap.lookup_insert, if_neg hkey]
    · rfl
  unfold initCpuset
  split_ifs
  · rfl
  · cases rootMems with
    | none => exact (hcpus _ _).trans hmkdir
    | some mems =>
        simp only [CpusetTree.tryMems, CpusetTree.writeMems]
        split_ifs
        · rw [KeyMap.lookup_insert, if_neg hkey]
          exact (hcpus _ _).trans hmkdir
        · exact (hcpus _ _).trans hmkdir

end

/-! ### Runs -/

/-- An operation on the directories, with the kernel's answers. -/
inductive TreeAction where
  | ensure (fs : FsAnswers) (cpus : CpuSet) (topo : CpuTopology)
  | init (fs : FsAnswers) (present rootMems : Option Str) (access : Bool)

/-- One step; every operation is possible in every state. -/
def treeStep (tree : CpusetTree) : TreeAction → Option CpusetTree
  | .ensure fs cpus topo => some (ensureCpusetDirIn fs tree cpus topo).2
  | .init fs present rootMems access => some (initCpuset fs tree present rootMems access)

/-- **A directory that was handed out stays right.**  Whatever the daemon does to the directories
afterwards, and whichever of its calls fail, a name that `ensure_cpuset_dir` has returned denotes
a directory whose CPUs are those that were asked for. -/
theorem ensured_dir_stays (fs : FsAnswers) (tree tree' : CpusetTree) (cpus : CpuSet) (topo : CpuTopology)
    (hname : (ensureCpusetDirIn fs tree cpus topo).1 ≠ [])
    (hr : Runs.Steps treeStep (fun _ _ => True) (ensureCpusetDirIn fs tree cpus topo).2 tree') :
    ∃ c, tree'.lookup (baseCpuset ++ '/' :: (ensureCpusetDirIn fs tree cpus topo).1) = some c ∧ c.cpus = cpus := by
  obtain ⟨hdir, hne, c₀, hl, hc₀, -⟩ := ensureCpusetDirIn_spec hname
  rw [hdir]
  refine hr.invariant
    (I := fun t => ∃ c, t.lookup (baseCpuset ++ '/' :: cpus.toRangeString) = some c ∧ c.cpus = cpus) ?_
    ⟨c₀, hl, hc₀⟩
  rintro t a t' ⟨c, hc, hcpus⟩ - hs
  cases a with
  | ensure fs' cpus' topo' =>
      obtain rfl := Option.some.inj hs
      obtain ⟨c', hc', he, -⟩ := ensureCpusetDirIn_keeps fs' cpus' topo' hc fun hk _ =>
        hcpus.trans (subdir_eq_dirKey hk)
      exact ⟨c', hc', he.trans hcpus⟩
  | init fs' present rootMems access =>
      obtain rfl := Option.some.inj hs
      obtain ⟨c', hc', he⟩ := initCpuset_keeps fs' present rootMems access hc fun hk =>
        absurd hk (subdir_ne_base _)
      exact ⟨c', hc', he.trans hcpus⟩

/-- The directory is created again, and its memory nodes are refused. -/
theorem ensured_dir_stays_refused :
    ∃ tree', Runs.run treeStep (ensureCpusetDirIn .allows ∅ (fromRange "4-7".toList) cpusetDevice).2
        [.ensure { FsAnswers.allows with write := fun _ text => text != cpusetDevice.memsStr } (fromRange "4-7".toList)
          cpusetDevice, .init .allows (some "0-7".toList) none true] = some tree' ∧
      (ensureCpusetDirIn .allows ∅ (fromRange "4-7".toList) cpusetDevice).1 = "4-7".toList ∧
      ∃ c, tree'.lookup
          (baseCpuset ++ '/' :: (ensureCpusetDirIn .allows ∅ (fromRange "4-7".toList) cpusetDevice).1) = some c ∧
        c.cpus = fromRange "4-7".toList := by
  obtain ⟨tree', hr, -⟩ := Runs.exists_run treeStep
    (ensureCpusetDirIn .allows ∅ (fromRange "4-7".toList) cpusetDevice).2
    [.ensure { FsAnswers.allows with write := fun _ text => text != cpusetDevice.memsStr } (fromRange "4-7".toList)
      cpusetDevice, .init .allows (some "0-7".toList) none true] (fun _ => true) rfl
  have hname : (ensureCpusetDirIn .allows ∅ (fromRange "4-7".toList) cpusetDevice).1 = "4-7".toList := by
    decide +kernel
  exact ⟨tree', hr, hname, ensured_dir_stays .allows ∅ tree' _ _ (by rw [hname]; decide)
    (Runs.steps_of_run (fun _ _ _ => trivial) hr)⟩

/-- Every directory that is named by a set has the CPUs of the set, or none yet. -/
def NamedRight (tree : CpusetTree) : Prop :=
  ∀ s c, s ≠ CpuSet.new → tree.lookup (baseCpuset ++ '/' :: s.toRangeString) = some c →
    c.cpus = s ∨ c.cpus = CpuSet.new

/-- A write to a directory that is named by its CPUs leaves it right. -/
theorem putCpus_right {tree : CpusetTree} {s cpus : CpuSet} (hs : s ≠ CpuSet.new)
    (hk : baseCpuset ++ '/' :: s.toRangeString = dirKey (baseCpuset ++ '/' :: cpus.toRangeString)) :
    ((tree.found (dirKey (baseCpuset ++ '/' :: cpus.toRangeString))).putCpus cpus.toRangeString).cpus = s := by
  obtain rfl := subdir_eq_dirKey hk
  have htext : s.toRangeString ≠ [] := fun he => hs (toRangeString_eq_nil.mp he)
  exact (Cpuset.putCpus_of_ne htext).trans (parse_toRangeString s)

theorem NamedRight.ensure {tree : CpusetTree} (h : NamedRight tree) (fs : FsAnswers) (cpus : CpuSet)
    (topo : CpuTopology) : NamedRight (ensureCpusetDirIn fs tree cpus topo).2 := by
  unfold ensureCpusetDirIn
  split_ifs
  · exact h
  intro s c hs hc
  have hcase := createCpusetDir_case fs tree (subdirCall cpus.toRangeString topo)
  dsimp only at hc
  generalize createCpusetDir fs tree (subdirCall cpus.toRangeString topo) = out at hcase hc
  cases hcase with
  | refused => exact h s c hs hc
  | bare =>
      rw [KeyMap.lookup_insert] at hc
      split_ifs at hc
      · obtain rfl := Option.some.inj hc
        exact Or.inr rfl
      · exact h s c hs hc
  | half hl =>
      rw [hl] at hc
      split_ifs at hc with hk
      · obtain rfl := Option.some.inj hc
        exact Or.inl (putCpus_right hs hk)
      · exact h s c hs hc
  | done hl =>
      rw [hl] at hc
      split_ifs at hc with hk
      · obtain rfl := Option.some.inj hc
        rw [Cpuset.putMems_cpus]
        exact Or.inl (putCpus_right hs hk)
      · exact h s c hs hc

theorem NamedRight.init {tree : CpusetTree} (h : NamedRight tree) (fs : FsAnswers) (present rootMems : Option Str)
    (access : Bool) : NamedRight (initCpuset fs tree present rootMems access) := by
  intro s c hs hc
  rw [initCpuset_other fs present rootMems access (subdir_ne_base _)] at hc
  exact h s c hs hc

/-- **The directories are named by their CPUs.**  Where this holds of the tree that the daemon finds,
it holds after every run of its operations, whichever of their calls fail. -/
theorem named_right_stays (tree tree' : CpusetTree) (h : NamedRight tree)
    (hr : Runs.Steps treeStep (fun _ _ => True) tree tree') : NamedRight tree' := by
  refine hr.invariant (I := NamedRight) ?_ h
  intro t a t' ht _ hs
  cases a with
  | ensure fs cpus topo =>
      obtain rfl := Option.some.inj hs
      exact ht.ensure fs cpus topo
  | init fs present rootMems access =>
      obtain rfl := Option.some.inj hs
      exact ht.init fs present rootMems access

theorem namedRight_empty : NamedRight ∅ := fun _ _ _ hc => by
  rw [AList.lookup_empty] at hc
  cases hc

/-- No directory is there yet; two are made, one of them without its CPUs. -/
theorem named_right_stays_bare :
    ∃ tree', Runs.run treeStep ∅ [.init .allows (some "0-7".toList) none true,
        .ensure .allows (fromRange "4-7".toList) cpusetDevice,
        .ensure { FsAnswers.allows with write := fun _ _ => false } (fromRange "0-1".toList) cpusetDevice] =
      some tree' ∧ NamedRight tree' := by
  obtain ⟨tree', hr, -⟩ := Runs.exists_run treeStep ∅ [.init .allows (some "0-7".toList) none true,
    .ensure .allows (fromRange "4-7".toList) cpusetDevice,
    .ensure { FsAnswers.allows with write := fun _ _ => false } (fromRange "0-1".toList) cpusetDevice]
    (fun _ => true) rfl
  exact ⟨tree', hr, named_right_stays ∅ tree' namedRight_empty (Runs.steps_of_run (fun _ _ _ => trivial) hr)⟩

/-- The CPUs of the base after `init_cpu_topo`: those of the text, or, if there is none to write, those
that it had. -/
def startCpus (tree : CpusetTree) (present : Option Str) : CpuSet :=
  ((tree.found baseCpuset).putCpus ((present.map Str.trim).getD [])).cpus

/-- `init_cpuset` reads these CPUs, if it reads any. -/
def KeepsBase (cpus : CpuSet) (_ : CpusetTree) : TreeAction → Prop
  | .ensure _ _ _ => True
  | .init _ text _ _ => Str.trim (text.getD []) ≠ [] → fromRange (Str.trim (text.getD [])) = cpus

/-- **The base directory keeps its CPUs** from the start on, also when a directory of the empty set is
asked for; they are the present ones, if the list of these could be read. -/
theorem base_stays (fs : FsAnswers) (tree tree' : CpusetTree) (present mems : Option Str) (access openBase : Bool)
    (hon : (initCpuTopo fs tree present mems access openBase).1.cpusetEnabled = true)
    (hr : Runs.Steps treeStep (KeepsBase (startCpus tree present))
      (initCpuTopo fs tree present mems access openBase).2 tree') :
    ∃ c, tree'.lookup baseCpuset = some c ∧ c.cpus = startCpus tree present ∧
      ((present.map Str.trim).getD [] ≠ [] →
        c.cpus = (initCpuTopo fs tree present mems access openBase).1.presentCpus) := by
  have hpresent : (present.map Str.trim).getD [] ≠ [] →
      startCpus tree present = (initCpuTopo fs tree present mems access openBase).1.presentCpus := by
    intro hne
    unfold startCpus initCpuTopo
    rw [Cpuset.putCpus_of_ne hne]
    split_ifs
    · rfl
    · rfl
  have hstart : ∃ c, (initCpuTopo fs tree present mems access openBase).2.lookup baseCpuset = some c ∧
      c.cpus = startCpus tree present := by
    unfold initCpuTopo at hon ⊢
    split_ifs at hon ⊢
    have hcase := createCpusetDir_case fs tree ⟨baseCpuset, (present.map Str.trim).getD [], "0".toList⟩
    simp only at hon ⊢
    generalize createCpusetDir fs tree ⟨baseCpuset, (present.map Str.trim).getD [], "0".toList⟩ = out
      at hcase hon ⊢
    cases hcase with
    | done hl =>
        dsimp only at hl
        rw [dirKey_base] at hl
        exact ⟨_, (hl _).trans (if_pos rfl), Cpuset.putMems_cpus _ _⟩
    | refused | bare | half => cases hon
  have hkept : ∃ c, tree'.lookup baseCpuset = some c ∧ c.cpus = startCpus tree present := by
    refine hr.invariant (I := fun t => ∃ c, t.lookup baseCpuset = some c ∧ c.cpus = startCpus tree present) ?_ hstart
    rintro t a t' ⟨c, hc, hcpus⟩ hok hs
    cases a with
    | ensure fs' cpus' topo' =>
        obtain rfl := Option.some.inj hs
        obtain ⟨c', hc', he, -⟩ := ensureCpusetDirIn_base fs' cpus' topo' hc
        exact ⟨c', hc', he.trans hcpus⟩
    | init fs' present' rootMems' access' =>
        obtain rfl := Option.some.inj hs
        obtain ⟨c', hc', he⟩ := initCpuset_keeps fs' present' rootMems' access' hc fun _ hne =>
          hcpus.trans (hok hne).symm
        exact ⟨c', hc', he.trans hcpus⟩
  obtain ⟨c, hc, hcpus⟩ := hkept
  exact ⟨c, hc, hcpus, fun hne => hcpus.trans (hpresent hne)⟩

/-- A device with eight CPUs: the base, the directory of no CPU, and the base again. -/
theorem base_stays_eight :
    ∃ tree', (initCpuTopo .allows ∅ (some "0-7\n".toList) none true true).1.cpusetEnabled = true ∧
      Runs.Steps treeStep (KeepsBase (startCpus ∅ (some "0-7\n".toList)))
        (initCpuTopo .allows ∅ (some "0-7\n".toList) none true true).2 tree' ∧
      ∃ c, tree'.lookup baseCpuset = some c ∧
        c.cpus = (initCpuTopo .allows ∅ (some "0-7\n".toList) none true true).1.presentCpus := by
  have hsame : fromRange (Str.trim "0-7\n".toList) = startCpus ∅ (some "0-7\n".toList) := by decide +kernel
  have hr : Runs.Steps treeStep (KeepsBase (startCpus ∅ (some "0-7\n".toList)))
      (initCpuTopo .allows ∅ (some "0-7\n".toList) none true true).2 _ :=
    .tail (.single (a := .ensure .allows CpuSet.new cpusetDevice) trivial rfl)
      (a := .init .allows (some "0-7\n".toList) none true) (fun _ => hsame) rfl
  have hon : (initCpuTopo .allows ∅ (some "0-7\n".toList) none true true).1.cpusetEnabled = true := by decide +kernel
  obtain ⟨c, hc, -, hcpus⟩ := base_stays .allows ∅ _ (some "0-7\n".toList) none true true hon hr
  exact ⟨_, hon, hr, c, hc, hcpus (by decide +kernel)⟩

end AetherOptExt
