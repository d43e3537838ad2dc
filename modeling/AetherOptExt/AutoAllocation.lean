import AetherOptExt.Process
import AetherOptExt.Config

/-! # Automatic allocation (`process.rs`, `config.rs`)

`scanUnknown` lists the user applications that the configuration does not name, with the names
of their threads.  `cache.save` estimates the load of each name, groups the heavy ones under
the text of the big and the middle CPUs, and writes an entry that `cache.merge` will read.  A
text written to the cache file comes from the library function `stringifyPretty`, a parameter
here like `parse`. -/

namespace AetherOptExt

/-! ### Unknown applications -/

/-- `MIN_USER_PID`. -/
def minUserPid : ℤ := 1000

/-- One entry of `/proc` as `scan_unknown` finds it; `pid` is the entry's name as a number. -/
structure UnknownReading where
  pid : Option Tid
  cmdline : Option Str
  status : Option Str
  task : Option (List (Tid × Option Str))

/-- An application that was found, with the ids and names of its threads. -/
structure UnknownApp where
  pid : Tid
  pkg : Str
  threads : List (Tid × Str)

/-- `split_whitespace`. -/
def splitWhitespace (s : Str) : List Str := (s.splitOnP Str.isWhitespace).filter (fun w => !w.isEmpty)

/-- `str::parse::<u32>`. -/
def parseU32 (s : Str) : Option ℕ := (parseUsize s).filter (fun n => decide (n < 2 ^ 32))

/-- Does the first `Uid:` line of `status` name a user application? -/
def isUser (status : Str) : Bool :=
  match (status.splitOn '\n').find? (fun line => "Uid:".toList.isPrefixOf line) with
  | none => false
  | some line => (((splitWhitespace line)[1]?).bind parseU32).any (fun uid => decide (10000 ≤ uid))

/-- The reading of one entry. -/
def unknownApp (set : KeySet Str) (wild : List Str) (r : UnknownReading) : Option UnknownApp := do
  let pid ← r.pid
  let cl ← r.cmdline
  let pkg := splitFirst '\x00' cl
  let status ← r.status
  let th := (r.task.getD []).map (fun t => (t.1, Str.trim (t.2.getD [])))
  if pid.toInt < minUserPid || pkg.isEmpty || pkg.contains '/' || !pkg.contains '.' ||
      decide (pkg ∈ set) || wild.any (fun w => fnmatch w pkg) || !isUser status || th.isEmpty then none
  else some ⟨pid, pkg, th⟩

/-- `scan_unknown`; `dir` is the listing of `/proc`. -/
def scanUnknown (set : KeySet Str) (wild : List Str) (dir : Option (List UnknownReading)) : List UnknownApp :=
  (dir.getD []).filterMap (unknownApp set wild)

/-! ### Writing the cache -/

/-- `array[0]`. -/
def JsonValue.first : JsonValue → JsonValue
  | .array (item :: _) => item
  | _ => .null

namespace cache

/-- `is_blacklisted`. -/
def isBlacklisted (pkg : Str) : Bool :=
  [":widgetProvider", ":searchDataService", ":coreService", ":cognitionService", ":bert", ":bertAlgo", ":privacy",
      ":kit7", ":services", ":daemon"].any (fun s => s.toList.isSuffixOf pkg) ||
    pkg == "android.process.media".toList || pkg == "android.process.acore".toList ||
    ["com.qualcomm.", ".qti", ".qms", ".cacert", ".dataservices"].any (fun s => s.toList.isPrefixOf pkg)

/-- One of the words is in the name. -/
def containsAny (name : Str) (words : List String) : Bool := words.any (fun w => decide (w.toList <:+: name))

/-- `est_load`: the load that the name of a thread suggests. -/
def estLoad (name : Str) : ℕ :=
  if containsAny name ["Render", "Gfx", "GL", "Vulkan"] then 10
  else if containsAny name ["Decode", "Codec", "Video", "Audio"] then 8
  else if containsAny name ["Main", "Unity", "Game", "Native", "RHI", "TaskGraph"] then 9
  else if containsAny name ["Worker", "Thread", "Job"] then 5
  else if containsAny name ["Io", "Network", "Http"] then 3
  else if containsAny name ["Background", "Idle", "Pool"] then 1
  else 5

/-- The three lists that `save` sorts the names into. -/
structure Names where
  bigNames : List Str
  midNames : List Str
  lilNames : List Str

/-- One name of the loop. -/
def sortName (hasMid : Bool) (acc : Names) (comm : Str) : Names :=
  let load := estLoad comm
  if load ≥ 8 then { acc with bigNames := acc.bigNames ++ [comm] }
  else if load ≥ 5 && hasMid then { acc with midNames := acc.midNames ++ [comm] }
  else { acc with lilNames := acc.lilNames ++ [comm] }

/-- The names of all threads of the processes called `pkg`, sorted by load. -/
def sortNames (pkg : Str) (all : List UnknownApp) (hasMid : Bool) : Names :=
  (all.filter (·.pkg == pkg)).foldl (fun acc app => app.threads.foldl (fun acc t => sortName hasMid acc t.2) acc)
    ⟨[], [], []⟩

/-- `comm_map.entry(key).or_default().push(name)` on a map sorted by key. -/
def pushName (key : Str) (map : List (Str × List Str)) (name : Str) : List (Str × List Str) :=
  match map with
  | [] => [(key, [name])]
  | (k, names) :: rest =>
      if key = k then (k, names ++ [name]) :: rest
      else if key < k then (key, [name]) :: (k, names) :: rest
      else (k, names) :: pushName key rest name

/-- The entry that `save` writes for a package. -/
def allocEntry (pkg : Str) (all : List UnknownApp) (big mid little : Str) : JsonValue :=
  let names := sortNames pkg all (!mid.isEmpty)
  let commMap := names.midNames.foldl (pushName mid) (names.bigNames.foldl (pushName big) [])
  let comm := if names.bigNames.isEmpty && names.midNames.isEmpty then []
    else [("comm".toList, .object (commMap.map (fun e => (e.1, .array (e.2.map .string)))))]
  .object [("friendly".toList, .string ("[auto] ".toList ++ pkg)), ("packages".toList, .array [.string pkg]),
    ("cpuset".toList, .object (("other".toList, .string little) :: comm))]

/-- The entries of the file that `save` finds. -/
def oldEntries (parse : Str → Option JsonValue) (old : Option Str) : List JsonValue :=
  let old := old.getD []
  if (Str.trim old).isEmpty || (old.dropWhile Str.isWhitespace).head? != some '[' then []
  else ((parse old).getD (.array [])).members

/-- The array that `save` writes: the old entries of other packages, then the new one. -/
def deduped (parse : Str → Option JsonValue) (old : Option Str) (pkg : Str) (entry : JsonValue) : JsonValue :=
  .array ((oldEntries parse old).filter (fun e => (e.get "packages").first.asStr != some pkg) ++ [entry])

/-- `cache::save`: the text written to the cache file, `none` when nothing is written. -/
def save (parse : Str → Option JsonValue) (stringifyPretty : JsonValue → Str) (old : Option Str) (pkg : Str)
    (all : List UnknownApp) (big mid little : Str) : Option Str :=
  if isBlacklisted pkg then none
  else some (stringifyPretty (deduped parse old pkg (allocEntry pkg all big mid little)))

end cache

end AetherOptExt
