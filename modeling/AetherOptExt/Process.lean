import AetherOptExt.CpuSet
import AetherOptExt.Kernel

/-! # What the daemon reads and sets of a thread (`process.rs`)

The answers of the operating system during one operation are an `Env`: the affinity of a
thread, the outcome of setting it and of creating a directory.  `affinitySet` binds one thread
and reports whether it has exited; `affinitySetRun` also lists the calls it makes.

`readCmdline` and `tidComm` take the text of the file they read, `none` when it cannot be
read. -/

namespace AetherOptExt

/-- The answers of the operating system; `setErrno` is `none` on success. -/
structure Env where
  getAffinity : Tid → Option CpuSet
  setErrno : Tid → CpuSet → Option ℕ
  createDir : DirCall → Bool

/-- `ESRCH`. -/
def esrch : ℕ := 3

/-- A call that changes a thread's placement. -/
inductive PlaceCall where
  | writeTask (path : Str) (tid : Tid)
  | setAffinity (tid : Tid) (cpus : CpuSet)
deriving DecidableEq

/-- The `tasks` file of a cpuset directory; an empty name is the base cpuset. -/
def tasksPath (cpusetDir : Str) : Str :=
  if cpusetDir.isEmpty then baseCpuset ++ "/tasks".toList
  else baseCpuset ++ '/' :: cpusetDir ++ "/tasks".toList

/-- `affinity_set` with the calls it makes. -/
def affinitySetRun (env : Env) (tid : Tid) (cpus : CpuSet) (cpusetDir : Str) (topo : CpuTopology) :
    Bool × List PlaceCall :=
  if (env.getAffinity tid).any (· == cpus) then (false, [])
  else
    let calls := (if topo.cpusetEnabled then [PlaceCall.writeTask (tasksPath cpusetDir) tid] else []) ++
      [PlaceCall.setAffinity tid cpus]
    (decide (env.setErrno tid cpus = some esrch), calls)

/-- `affinity_set`: `true` says that the thread has exited. -/
def affinitySet (env : Env) (tid : Tid) (cpus : CpuSet) (cpusetDir : Str) (topo : CpuTopology) : Bool :=
  (affinitySetRun env tid cpus cpusetDir topo).1

theorem affinitySet_eq (env : Env) (tid : Tid) (cpus : CpuSet) (dir : Str) (topo : CpuTopology) :
    affinitySet env tid cpus dir topo =
      (!(env.getAffinity tid).any (· == cpus) && decide (env.setErrno tid cpus = some esrch)) := by
  unfold affinitySet affinitySetRun
  cases (env.getAffinity tid).any (· == cpus) with
  | true => rfl
  | false => rfl

/-- The text before the first `c`. -/
def splitFirst (c : Char) (s : Str) : Str := s.takeWhile (· != c)

/-- `read_cmdline`: the first argument, unless it is empty. -/
def readCmdline (cl : Option Str) : Option Str :=
  cl.bind (fun cl =>
    let pkg := splitFirst '\x00' cl
    if pkg.isEmpty then none else some pkg)

/-- `tid_comm`: the trimmed name, unless it is empty. -/
def tidComm (comm : Option Str) : Option Str :=
  comm.bind (fun comm =>
    let s := Str.trim comm
    if s.isEmpty then none else some s)

/-! ### An environment for a set of live threads -/

/-- The answers of `env`, except that a thread is missing exactly when it is not live. -/
def Env.over (env : Env) (live : Tid → Bool) : Env :=
  { getAffinity := fun t => if live t then env.getAffinity t else none
    setErrno := fun t cpus =>
      if live t then (env.setErrno t cpus).filter (· != esrch) else some esrch
    createDir := env.createDir }

@[simp] theorem Env.over_createDir (env : Env) (live : Tid → Bool) : (env.over live).createDir = env.createDir :=
  rfl

/-- In such an environment `affinity_set` reports exactly the threads that are not live. -/
@[simp] theorem affinitySet_over (env : Env) (live : Tid → Bool) (tid : Tid) (cpus : CpuSet) (dir : Str)
    (topo : CpuTopology) : affinitySet (env.over live) tid cpus dir topo = !live tid := by
  rw [affinitySet_eq]
  cases hl : live tid with
  | false => simp [Env.over, hl]
  | true =>
      have hne : (env.setErrno tid cpus).filter (· != esrch) ≠ some esrch := by
        intro h
        have := (Option.filter_eq_some_iff.mp h).2
        simp at this
      simp [Env.over, hl, hne]

end AetherOptExt
