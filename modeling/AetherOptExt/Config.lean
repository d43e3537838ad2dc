import AetherOptExt.CpuSet
import AetherOptExt.Lib.KeyMap

/-! # Rules, configuration and cache files (`config.rs`)

`AppConfig.load` turns the parsed configuration file into rules, `cache.merge` appends those
of the auto-allocation cache.  The JSON parser is a library outside the repository: it is the
parameter `parse`, and `JsonValue` is the type of its results with the accessors the loader
uses, which never fail and answer `null` on a missing key.

`loadParse` is the part of `load` before the file's `mtime` is read; the daemon can be
overtaken by a writer between the two, so they are separate functions here. -/

namespace AetherOptExt

/-- `fnmatch`: an exact pattern, or one split at its first star into a prefix and a literal
suffix.  Positions count characters; both slices of the source are taken at a position where
a prefix test has succeeded, so they cut the same text. -/
def fnmatch (pat name : Str) : Bool :=
  if pat.isEmpty then false
  else match pat.findIdx? (· == '*') with
    | none => pat == name
    | some pos =>
        (pat.take pos).isPrefixOf name &&
          ((pat.drop (pos + 1)).isEmpty || (pat.drop (pos + 1)).isSuffixOf (name.drop pos))

/-- `rule_prio`: the weight of a thread pattern. -/
def rulePrio (pat : Str) : ℤ :=
  if pat.isEmpty then 200
  else if !pat.contains '*' && !pat.contains '?' then 1000 + Str.byteLen pat
  else
    let nw := pat.countP (fun c => !(c == '*' || c == '?' || c == '[' || c == ']'))
    if pat.contains '[' then 500 + nw else if pat.contains '?' then 300 + nw else 100 + nw

/-- A binding rule; one with an empty `thread` is the package-level rule. -/
structure Rule where
  pkg : Str
  thread : Str
  cpus : Str
  prio : ℤ
  cpusetDir : Str
deriving DecidableEq

structure AppConfig where
  rules : List Rule
  pkgSet : KeySet Str
  wild : List Str
  mtime : ℕ
  ebpf : Bool
  topo : CpuTopology

namespace AppConfig

/-- Does the package have thread rules?  The rule's package is read as a pattern. -/
def pkgHasThreadRules (cfg : AppConfig) (pkg : Str) : Bool :=
  cfg.rules.any (fun r => !r.thread.isEmpty && fnmatch r.pkg pkg)

end AppConfig

/-- A non-empty pattern matches itself. -/
theorem fnmatch_self {pat : Str} (h : pat ≠ []) : fnmatch pat pat = true := by
  have hne : pat.isEmpty = false := by simpa using h
  unfold fnmatch
  rw [hne]
  simp only [Bool.false_eq_true, if_false]
  cases pat.findIdx? (· == '*') with
  | none => simp
  | some pos =>
      have h1 : (pat.take pos).isPrefixOf pat = true := List.isPrefixOf_iff_prefix.mpr (List.take_prefix pos pat)
      have h2 : (pat.drop (pos + 1)).isSuffixOf (pat.drop pos) = true := by
        rw [List.isSuffixOf_iff_suffix, ← List.drop_drop]
        exact List.drop_suffix 1 _
      simp [h1, h2]

theorem findIdx_star {s : Str} (h : '*' ∉ s) : s.findIdx? (· == '*') = none := by
  rw [List.findIdx?_eq_none_iff]
  intro c hc
  rw [beq_eq_false_iff_ne]
  rintro rfl
  exact h hc

/-- A non-empty pattern without stars matches itself only. -/
theorem fnmatch_literal {pat name : Str} (hne : pat ≠ []) (h : '*' ∉ pat) : fnmatch pat name = true ↔ pat = name := by
  unfold fnmatch
  rw [if_neg (by simpa using hne), findIdx_star h]
  exact beq_iff_eq

/-! ### JSON values -/

/-- A value of the JSON library; numbers are kept as text, no function reads them. -/
inductive JsonValue where
  | null
  | boolean (b : Bool)
  | number (text : Str)
  | string (s : Str)
  | array (items : List JsonValue)
  | object (fields : List (Str × JsonValue))

namespace JsonValue

/-- `value[key]`. -/
def get (v : JsonValue) (key : String) : JsonValue :=
  match v with
  | object fields => (fields.lookup key.toList).getD null
  | _ => null

def asStr : JsonValue → Option Str
  | string s => some s
  | _ => none

def asBool : JsonValue → Option Bool
  | boolean b => some b
  | _ => none

def isArray : JsonValue → Bool
  | array _ => true
  | _ => false

def isObject : JsonValue → Bool
  | object _ => true
  | _ => false

/-- `members()`: the items of an array, nothing on other values. -/
def members : JsonValue → List JsonValue
  | array items => items
  | _ => []

/-- `entries()`: the fields of an object, nothing on other values. -/
def entries : JsonValue → List (Str × JsonValue)
  | object fields => fields
  | _ => []

end JsonValue

/-! ### Loading -/

/-- The strings among the members of an entry's `packages`. -/
def entryPackages (e : JsonValue) : List Str :=
  (e.get "packages").members.filterMap JsonValue.asStr

/-- The CPU text of an entry's `other`. -/
def entryOther (e : JsonValue) : Str := ((e.get "cpuset").get "other").asStr.getD ['0']

/-- The pairs of CPU text and thread name of an entry's `comm`, in file order. -/
def entryComm (e : JsonValue) : List (Str × Str) :=
  let comm := (e.get "cpuset").get "comm"
  if comm.isObject then
    comm.entries.flatMap (fun f => (f.2.members.filterMap JsonValue.asStr).map (fun name => (f.1, name)))
  else []

/-- The rule made of one `comm` pair of the package `pkg`. -/
def commRule (pkg : Str) (cn : Str × Str) : Rule :=
  { pkg := pkg, thread := cn.2, cpus := cn.1, prio := rulePrio cn.2, cpusetDir := [] }

/-- A name that `load` also records as a wildcard. -/
def isWild (pk : Str) : Bool := pk.contains '*' || pk.contains '?'

/-- The loop state of `load`, with the directory calls made so far. -/
structure Loaded where
  rules : List Rule
  pkgSet : KeySet Str
  wild : List Str
  made : List DirCall

/-- The package-level rule's directory, created while loading. -/
def otherCpusetDir (mk : DirCall → Bool) (topo : CpuTopology) (other : Str) : Str × List DirCall :=
  ensureCpusetDir mk (fromRange other) topo

/-- One entry of the file: all names are registered, the rules carry the first one. -/
def loadEntry (mk : ℕ → DirCall → Bool) (topo : CpuTopology) (acc : Loaded) (e : JsonValue) : Loaded :=
  match entryPackages e with
  | [] => acc
  | first :: rest =>
      let pl := first :: rest
      let other := entryOther e
      let dir := otherCpusetDir (mk acc.made.length) topo other
      { rules := acc.rules ++
          { pkg := first, thread := [], cpus := other, prio := 200, cpusetDir := dir.1 } ::
            (entryComm e).map (commRule first)
        pkgSet := pl.foldl KeySet.insert acc.pkgSet
        wild := acc.wild ++ pl.filter isWild
        made := acc.made ++ dir.2 }

/-- The entries `load` walks, and the eBPF switch; `none` when the file is rejected. -/
def loadRoot (root : JsonValue) : Option (List JsonValue × Bool) :=
  if (root.get "nekonemo").asStr == some "meow".toList &&
      decide ((if root.isObject then root.entries.length else 0) ≤ 1) then none
  else
    let ebpf := ((root.get "features").get "ebpf").asBool.getD false
    let entries := if root.isArray then root else root.get "rules"
    if entries.isArray then some (entries.members, ebpf) else none

/-- All of `load` that precedes the metadata call: the loaded entries and the eBPF switch. -/
def loadParse (parse : Str → Option JsonValue) (mk : ℕ → DirCall → Bool) (topo : CpuTopology)
    (data : Option Str) : Option (Loaded × Bool) := do
  let root ← parse (← data)
  let (entries, ebpf) ← loadRoot root
  pure (entries.foldl (loadEntry mk topo) ⟨[], KeySet.empty, [], []⟩, ebpf)

namespace AppConfig

/-- The configuration made of what was loaded and the file's `mtime`. -/
def ofLoaded (topo : CpuTopology) (l : Loaded × Bool) (mtime : ℕ) : AppConfig :=
  { rules := l.1.rules, pkgSet := l.1.pkgSet, wild := l.1.wild, mtime := mtime, ebpf := l.2, topo := topo }

/-- `AppConfig::load`: `data` is the file's text and `mtime` its modification time, each
`none` when the call that reads it fails. -/
def load (parse : Str → Option JsonValue) (mk : ℕ → DirCall → Bool) (topo : CpuTopology)
    (data : Option Str) (mtime : Option ℕ) : Option AppConfig := do
  let l ← loadParse parse mk topo data
  pure (ofLoaded topo l (← mtime))

end AppConfig

/-! ### The cache file -/

namespace cache

/-- The loop state of `merge`. -/
structure Merged where
  seenPkgs : KeySet Str
  set : KeySet Str
  rules : List Rule

/-- One entry of the cache file; an entry whose first package was seen is skipped. -/
def mergeEntry (acc : Merged) (entry : JsonValue) : Merged :=
  match entryPackages entry with
  | [] => acc
  | first :: rest =>
      if first ∈ acc.seenPkgs then acc
      else
        { seenPkgs := acc.seenPkgs.insert first
          set := (first :: rest).foldl KeySet.insert acc.set
          rules := acc.rules ++
            { pkg := first, thread := [], cpus := entryOther entry, prio := 200, cpusetDir := [] } ::
              (entryComm entry).map (commRule first) }

/-- `cache::merge`: append the rules of the cache file, when it can be read and parsed. -/
def merge (parse : Str → Option JsonValue) (data : Option Str) (set : KeySet Str) (rules : List Rule) :
    KeySet Str × List Rule :=
  match data.bind parse with
  | none => (set, rules)
  | some root =>
      if root.isArray then
        let m := root.members.foldl mergeEntry ⟨KeySet.empty, set, rules⟩
        (m.set, m.rules)
      else (set, rules)

end cache

/-- `merge` applied to a configuration's `pkg_set` and `rules`. -/
def AppConfig.mergeCache (parse : Str → Option JsonValue) (data : Option Str) (cfg : AppConfig) :
    AppConfig :=
  let m := cache.merge parse data cfg.pkgSet cfg.rules
  { cfg with pkgSet := m.1, rules := m.2 }

end AetherOptExt
