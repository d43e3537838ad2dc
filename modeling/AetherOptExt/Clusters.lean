import AetherOptExt.AutoAllocation
import AetherOptExt.CpuRanges

/-! # CPU clusters (`cpu.rs`, `cpuset.rs`)

Two functions read the cpufreq directory.  `detect` answers with the CPU lists of the big, the
middle and the little cluster, as texts made by `fmtCpus`, for the rules of the automatic
allocation.  `detectCoreTypes` answers with three CPU sets, for the topology.

What they read is a `CpuSysfs`: the entries of the directory in the order they are listed, the
frequency file of each CPU and the mask of present CPUs, `none` where a file cannot be read. -/

namespace AetherOptExt

/-- One entry of `/sys/devices/system/cpu/cpufreq`. -/
structure CpufreqEntry where
  name : Str
  relatedCpus : Option Str
  cpuinfoMaxFreq : Option Str

/-- What is read under `/sys/devices/system/cpu`; `maxFreq cpu` is the file of one CPU. -/
structure CpuSysfs where
  cpufreq : Option (List CpufreqEntry)
  maxFreq : ℕ → Option Str
  presentFile : Option Str

/-- A cluster: a frequency and CPUs. -/
abbrev Cluster := ℕ × List ℕ

/-! ### Printing a list -/

/-- One part of the list. -/
def fmtPart (start stop : ℕ) : Str :=
  if start == stop then CpuSet.decimal start else CpuSet.decimal start ++ '-' :: CpuSet.decimal stop

/-- The parts of the list from the open run on; the inner loop of the source extends the run,
the outer one begins the next. -/
def fmtParts (start stop : ℕ) : List ℕ → List Str
  | [] => [fmtPart start stop]
  | c :: cs => if c == stop + 1 then fmtParts start c cs else fmtPart start stop :: fmtParts c c cs

/-- `fmt_cpus`. -/
def fmtCpus : List ℕ → Str
  | [] => ['0']
  | c :: cs => [','].intercalate (fmtParts c c cs)

/-! ### `cpu::detect` -/

/-- `present`: the trimmed mask. -/
def presentText (r : CpuSysfs) : Str := Str.trim (r.presentFile.getD [])

/-- The CPUs of one part of `related_cpus`. -/
def relatedPart (part : Str) : List ℕ :=
  let part := Str.trim part
  if part.isEmpty then []
  else match part.findIdx? (· == '-') with
    | some pos =>
        let s := (parseUsize (part.take pos)).getD 0
        let e := (parseUsize (part.drop (pos + 1))).getD s
        List.range' s (e + 1 - s)
    | none => (parseUsize part).toList

/-- The name of a policy directory. -/
def isPolicy (name : Str) : Bool := "policy".toList.isPrefixOf name

/-- The cluster of one entry, when it is a policy with a frequency and CPUs. -/
def policyCluster (e : CpufreqEntry) : Option Cluster :=
  if !isPolicy e.name then none
  else do
    let rel ← e.relatedCpus
    let text ← e.cpuinfoMaxFreq
    let freq ← parseUsize (Str.trim text)
    let cpus := ((Str.trim rel).splitOnP (fun c => c == ',' || c == ' ')).flatMap relatedPart
    if cpus.isEmpty then none else some (freq, cpus)

/-- Add CPUs to the group of the frequency, a new one when there is none. -/
def addToGroup (freq : ℕ) (cpus : List ℕ) : List Cluster → List Cluster
  | [] => [(freq, cpus)]
  | g :: groups => if g.1 == freq then (g.1, g.2 ++ cpus) :: groups else g :: addToGroup freq cpus groups

/-- One CPU of the second method. -/
def addCpu (maxFreq : ℕ → Option Str) (cls : List Cluster) (cpu : ℕ) : List Cluster :=
  match (maxFreq cpu).bind (fun text => parseUsize (Str.trim text)) with
  | none => cls
  | some freq => addToGroup freq [cpu] cls

/-- The second method: the frequencies of the CPUs, up to the first that cannot be read. -/
def perCpuClusters (maxFreq : ℕ → Option Str) : List Cluster :=
  ((List.range 128).takeWhile (fun cpu => (maxFreq cpu).isSome)).foldl (addCpu maxFreq) []

/-- A lone cluster that does not have all present CPUs is the little one, the other CPUs are
the big one. -/
def splitOffline (present : Str) (cls : List Cluster) : List Cluster :=
  let known := (cls.map (fun c => c.2.length)).sum
  let total := (((present.splitOnP (fun c => c == ',' || c == '-')).filterMap parseUsize).getLast?).getD 0 + 1
  let extra := (List.range total).filter (fun cpu => !(cls.flatMap (fun c => c.2)).contains cpu)
  match cls with
  | [] => []
  | c :: rest =>
      if cls.length < 2 && decide (known < total) && decide (0 < known) && !extra.isEmpty then
        rest ++ [(1, extra), (0, c.2)]
      else cls

/-- The answer of `detect`. -/
structure Detected where
  big : Str
  mid : Str
  little : Str
  topo : Str
deriving DecidableEq

/-- The answer for the sorted clusters. -/
def Detected.ofClusters : List Cluster → Detected
  | [] => ⟨['0'], [], ['0'], ['1']⟩
  | c :: rest =>
      { big := fmtCpus c.2
        mid := match rest with
          | m :: _ :: _ => fmtCpus m.2
          | _ => []
        little := fmtCpus ((c :: rest).getLast (List.cons_ne_nil c rest)).2
        topo := ['+'].intercalate ((c :: rest).map (fun c => CpuSet.decimal c.2.length)) }

/-- `cpu::detect`. -/
def detect (r : CpuSysfs) : Detected :=
  let cls := (r.cpufreq.getD []).filterMap policyCluster
  let cls := if cls.length < 2 then perCpuClusters r.maxFreq else cls
  let cls := cls.insertionSort (fun a b => b.1 ≤ a.1)
  Detected.ofClusters (splitOffline (presentText r) cls)

/-! ### `detect_core_types` -/

/-- The cluster of one entry as `detect_core_types` reads it. -/
def coreCluster (e : CpufreqEntry) : Option Cluster :=
  if !isPolicy e.name then none
  else
    let freq := (e.cpuinfoMaxFreq.bind (fun text => parseUsize (Str.trim text))).getD 0
    if freq == 0 then none
    else
      let cpus := (e.relatedCpus.map (fun text => (splitWhitespace text).filterMap parseUsize)).getD []
      if cpus.isEmpty then none else some (freq, cpus)

/-- The three layers of cores. -/
structure CoreTypes where
  eCore : CpuSet
  pCore : CpuSet
  hpCore : CpuSet
deriving DecidableEq

/-- Set all CPUs of a list. -/
def CpuSet.setAll (s : CpuSet) (cpus : List ℕ) : CpuSet := cpus.foldl CpuSet.set s

/-- One group in the order of frequency; `n` is the number of groups. -/
def addLayer (n : ℕ) (acc : CoreTypes) (g : Cluster × ℕ) : CoreTypes :=
  if g.2 = 0 then { acc with eCore := acc.eCore.setAll g.1.2 }
  else if g.2 = n - 1 then { acc with hpCore := acc.hpCore.setAll g.1.2 }
  else { acc with pCore := acc.pCore.setAll g.1.2 }

/-- `detect_core_types`. -/
def detectCoreTypes (r : CpuSysfs) : CoreTypes :=
  let groups := ((r.cpufreq.getD []).filterMap coreCluster).foldl (fun groups c => addToGroup c.1 c.2 groups) []
  let groups := groups.insertionSort (fun a b => a.1 ≤ b.1)
  groups.zipIdx.foldl (addLayer groups.length) ⟨CpuSet.new, CpuSet.new, CpuSet.new⟩

end AetherOptExt
