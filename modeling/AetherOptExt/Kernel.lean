import Mathlib.Data.BitVec
import Mathlib.Data.List.FinRange
import AetherOptExt.Lib.KeyMap

/-! # The kernel programs (`ebpf/src/main.rs`)

Four programs run on the tracepoints `sched_process_fork`, `sched_process_exec`,
`task_rename` and `sched_process_exit`.  Each reads the current thread's ids, its name or the
tracepoint's record, filters on the whitelist `TARGET_COMM_MAP` and the table `APPLIED_MAP`,
updates the latter and submits at most one event.

A hook is a function of the BPF maps and of a `TracePointContext`, which gives the answers of
the BPF helpers and of `read_at`; it returns the new `APPLIED_MAP` and the event it submits.
Neither a full ring buffer nor the eviction of an entry is modelled.  The last section says
what each hook does when it runs for a given thread (`forkContext`, `threadContext`). -/

namespace AetherOptExt

/-- A thread or process id: the 32 bits that `i32` and `u32` share. -/
abbrev Tid := BitVec 32

/-- A `comm` field: 16 bytes. -/
structure Comm where
  bytes : List UInt8
  size : bytes.length = 16
deriving DecidableEq

/-- `[0u8; 16]`. -/
def Comm.zero : Comm := ⟨List.replicate 16 0, by simp⟩

/-- A whitelist key: 8 bytes. -/
abbrev CommKey := { k : List UInt8 // k.length = 8 }

/-- `EVENT_FORK`. -/
abbrev eventFork : BitVec 32 := 1
/-- `EVENT_EXEC`. -/
abbrev eventExec : BitVec 32 := 2
/-- `EVENT_RENAME`. -/
abbrev eventRename : BitVec 32 := 3
/-- `EVENT_EXIT`. -/
abbrev eventExit : BitVec 32 := 4

/-- A process event. -/
structure ProcEvent where
  pid : Tid
  tid : Tid
  comm : Comm
  eventType : BitVec 32
deriving DecidableEq

/-- The record layout that user space reads from the tracepoint format files. -/
structure TracepointOffsets where
  forkChildPid : BitVec 32
  forkChildComm : BitVec 32
  renameNewcomm : BitVec 32
deriving DecidableEq

/-- What a program can ask: the helpers' answers and the two reads of the record. -/
structure TracePointContext where
  pidTgid : BitVec 64
  currentComm : Option Comm
  readI32 : BitVec 32 → Option (BitVec 32)
  readComm : BitVec 32 → Option Comm

/-- `TARGET_COMM_MAP`. -/
abbrev TargetMap := KeyMap CommKey (BitVec 32)

/-- `APPLIED_MAP`: the CPU mask bound to a thread. -/
abbrev AppliedMap := KeyMap Tid (BitVec 64)

/-- The BPF maps the programs read. -/
structure Maps where
  target : TargetMap
  applied : AppliedMap
  offsets : Option TracepointOffsets

/-- `offsets_load`: a zero `fork_child_pid` means that the offsets were never injected. -/
def offsetsLoad (m : Maps) : Option TracepointOffsets :=
  m.offsets.bind (fun o => if o.forkChildPid != 0 then some o else none)

/-- `applied_lookup`. -/
def appliedLookup (m : Maps) (key : Tid) : Bool := (m.applied.lookup key).isSome

/-- The 8 bytes of a `comm` at a position. -/
def Comm.window (c : Comm) (pos : Fin 9) : CommKey :=
  ⟨(c.bytes.drop pos).take 8, by have := c.size; have := pos.isLt; simp; omega⟩

/-- `whitelist_matched`: an 8-byte window slides over the 16 bytes. -/
def whitelistMatched (target : TargetMap) (comm : Comm) : Bool :=
  (List.finRange 9).any (fun pos => (target.lookup (comm.window pos)).isSome)

/-- `(pid_tgid & 0xFFFFFFFF) as u32`. -/
def lowTid (pidTgid : BitVec 64) : Tid := (pidTgid &&& 0xFFFFFFFF#64).setWidth 32

/-- `(pid_tgid >> 32) as u32`. -/
def highTgid (pidTgid : BitVec 64) : Tid := (pidTgid >>> 32).setWidth 32

/-- `fork_parse`: the parent's group, the child's id and name. -/
def forkParse (ctx : TracePointContext) (offsets : TracepointOffsets) : Tid × Tid × Comm :=
  (highTgid ctx.pidTgid, (ctx.readI32 offsets.forkChildPid).getD 0,
    (ctx.readComm offsets.forkChildComm).getD Comm.zero)

/-! ### The hooks -/

def schedProcessFork (m : Maps) (ctx : TracePointContext) : AppliedMap × Option ProcEvent :=
  match offsetsLoad m with
  | none => (m.applied, none)
  | some offsets =>
      let parentTid := lowTid ctx.pidTgid
      let (pid, tid, comm) := forkParse ctx offsets
      let isTracked := appliedLookup m parentTid
      if !isTracked && !whitelistMatched m.target comm then (m.applied, none)
      else
        (if isTracked then m.applied.insert tid 0 else m.applied,
          some { pid := pid, tid := tid, comm := comm, eventType := eventFork })

def schedProcessExec (m : Maps) (ctx : TracePointContext) : AppliedMap × Option ProcEvent :=
  let tid := lowTid ctx.pidTgid
  let tgid := highTgid ctx.pidTgid
  let comm := ctx.currentComm.getD Comm.zero
  if !whitelistMatched m.target comm then (m.applied, none)
  else (m.applied, some { pid := tgid, tid := tid, comm := comm, eventType := eventExec })

def taskRename (m : Maps) (ctx : TracePointContext) : AppliedMap × Option ProcEvent :=
  let tid := lowTid ctx.pidTgid
  if tid = 0 then (m.applied, none)
  else
    let tgid := highTgid ctx.pidTgid
    let tracked := appliedLookup m tid
    match offsetsLoad m with
    | none => (m.applied, none)
    | some offsets =>
        let newComm := (ctx.readComm offsets.renameNewcomm).getD Comm.zero
        if !tracked && !whitelistMatched m.target newComm then (m.applied, none)
        else (m.applied, some { pid := tgid, tid := tid, comm := newComm, eventType := eventRename })

def schedProcessExit (m : Maps) (ctx : TracePointContext) : AppliedMap × Option ProcEvent :=
  let tid := lowTid ctx.pidTgid
  let tgid := highTgid ctx.pidTgid
  if !appliedLookup m tid then (m.applied, none)
  else
    (m.applied.erase tid,
      some { pid := tgid, tid := tid, comm := Comm.zero, eventType := eventExit })

/-! ### The contexts the kernel provides -/

/-- `bpf_get_current_pid_tgid()` while the thread `tid` of the group `tgid` runs. -/
def pidTgidOf (tgid tid : Tid) : BitVec 64 := tgid.setWidth 64 <<< 32 ||| tid.setWidth 64

@[simp] theorem lowTid_pidTgidOf (tgid tid : Tid) : lowTid (pidTgidOf tgid tid) = tid := by
  have hmask : (0xFFFFFFFF#64).setWidth 32 = BitVec.allOnes 32 := by decide
  unfold lowTid
  rw [BitVec.setWidth_and, hmask, BitVec.and_allOnes]
  apply BitVec.eq_of_getLsbD_eq
  intro i hi
  simp [pidTgidOf, hi]

@[simp] theorem highTgid_pidTgidOf (tgid tid : Tid) : highTgid (pidTgidOf tgid tid) = tgid := by
  apply BitVec.eq_of_getLsbD_eq
  intro i hi
  have hlt : 32 + i < 64 := by omega
  simp [highTgid, pidTgidOf, hi, hlt]

/-- The context of a hook without a record that runs in the thread `tid`, called `comm`. -/
def threadContext (tgid tid : Tid) (comm : Comm) : TracePointContext :=
  { pidTgid := pidTgidOf tgid tid, currentComm := some comm, readI32 := fun _ => none, readComm := fun _ => none }

/-- `sched_process_fork` runs in the parent; the record carries the child's id and name. -/
def forkContext (o : TracepointOffsets) (tgid parent child : Tid) (comm : Comm) : TracePointContext :=
  { pidTgid := pidTgidOf tgid parent
    currentComm := some comm
    readI32 := fun off => if off = o.forkChildPid then some child else none
    readComm := fun off => if off = o.forkChildComm then some comm else none }

/-- The offset of the field `pid` in the record of `task_rename`, after the common fields. -/
def recordPid : BitVec 32 := 8

/-- `task_rename` runs in the thread that sets the name; the record carries the id of the
renamed thread and its new name. -/
def renameContext (o : TracepointOffsets) (tgid actor renamed : Tid) (oldComm newComm : Comm) :
    TracePointContext :=
  { pidTgid := pidTgidOf tgid actor
    currentComm := some oldComm
    readI32 := fun off => if off = recordPid then some renamed else none
    readComm := fun off => if off = o.renameNewcomm then some newComm else none }

/-! ### What the hooks do for a given thread -/

section

variable {m : Maps} {o : TracepointOffsets} {tgid tid child actor : Tid} {comm oldComm : Comm}

theorem offsetsLoad_of_some (ho : m.offsets = some o) (hpos : o.forkChildPid ≠ 0#32) :
    offsetsLoad m = some o := by
  simp [offsetsLoad, ho, hpos]

theorem appliedLookup_iff {t : Tid} : appliedLookup m t = true ↔ t ∈ m.applied := by
  rw [appliedLookup, AList.lookup_isSome]

/-- The fork hook: a tracked parent's child is entered into `APPLIED_MAP`; the event is
submitted when the parent is tracked or the name is whitelisted. -/
theorem schedProcessFork_eq (ho : offsetsLoad m = some o) :
    schedProcessFork m (forkContext o tgid tid child comm) =
      (if tid ∈ m.applied then m.applied.insert child 0 else m.applied,
        if tid ∈ m.applied ∨ whitelistMatched m.target comm = true then
          some ⟨tgid, child, comm, eventFork⟩ else none) := by
  unfold schedProcessFork
  rw [ho]
  by_cases hm : tid ∈ m.applied
  · simp [forkContext, forkParse, appliedLookup_iff.mpr hm, hm]
  · have hl : appliedLookup m tid = false := by
      rw [Bool.eq_false_iff]
      exact fun h => hm (appliedLookup_iff.mp h)
    cases hw : whitelistMatched m.target comm
    · simp [forkContext, forkParse, hl, hm, hw]
    · simp [forkContext, forkParse, hl, hm, hw]

theorem schedProcessExec_eq :
    schedProcessExec m (threadContext tgid tid comm) =
      (m.applied, if whitelistMatched m.target comm = true then some ⟨tgid, tid, comm, eventExec⟩ else none) := by
  cases hw : whitelistMatched m.target comm
  · simp [schedProcessExec, threadContext, hw]
  · simp [schedProcessExec, threadContext, hw]

/-- The rename hook takes both the filter and the event's ids from the acting thread. -/
theorem taskRename_eq (ho : offsetsLoad m = some o) {renamed : Tid} :
    taskRename m (renameContext o tgid actor renamed oldComm comm) =
      (m.applied,
        if actor ≠ 0#32 ∧ (actor ∈ m.applied ∨ whitelistMatched m.target comm = true) then
          some ⟨tgid, actor, comm, eventRename⟩ else none) := by
  unfold taskRename
  rw [ho]
  by_cases h0 : actor = 0#32
  · simp [renameContext, h0]
  by_cases hm : actor ∈ m.applied
  · simp [renameContext, appliedLookup_iff.mpr hm, hm, h0]
  · have hl : appliedLookup m actor = false := by
      rw [Bool.eq_false_iff]
      exact fun h => hm (appliedLookup_iff.mp h)
    cases hw : whitelistMatched m.target comm
    · simp [renameContext, hl, hm, hw, h0]
    · simp [renameContext, hl, hm, hw, h0]

theorem schedProcessExit_eq :
    schedProcessExit m (threadContext tgid tid comm) =
      (if tid ∈ m.applied then m.applied.erase tid else m.applied,
        if tid ∈ m.applied then some ⟨tgid, tid, Comm.zero, eventExit⟩ else none) := by
  unfold schedProcessExit
  by_cases hm : tid ∈ m.applied
  · simp [threadContext, appliedLookup_iff.mpr hm, hm]
  · have hl : appliedLookup m tid = false := by
      rw [Bool.eq_false_iff]
      exact fun h => hm (appliedLookup_iff.mp h)
    simp [threadContext, hl, hm]

end

end AetherOptExt
