import AetherOptExt.AffinitySync
import AetherOptExt.CpusetTree
import AetherOptExt.Lib.Sweep

/-! # The masks that threads really have

`affinity_set` writes a thread into the `tasks` file of a cpuset directory and then sets its
affinity.  A `Placement` is what these calls act on: the directories, and for every live thread
its mask and the directory it stands in.  The kernel's rules are those that the manual pages
cpuset(7) and sched_setaffinity(2) document: a thread that is moved into a directory gets all CPUs
of the directory, and a mask that is set is cut down to the CPUs of the thread's directory; a cut
that leaves nothing is refused.  Whether the kernel lets a thread be moved is a parameter, `allow`.

`affinitySetIn` and `affinitySyncIn` are the functions of the source on a placement; they report
what `affinitySet` and `affinitySync` report (`affinitySetIn_run`, `affinitySyncIn_fst`).  Between
two corrections anything may happen to the masks and to the directories of the threads. -/

namespace AetherOptExt

open CpuSet

namespace CpuSet

/-- The CPUs of both sets. -/
def inter (s t : CpuSet) : CpuSet := ⟨List.zipWith (· &&& ·) s.bits t.bits, by simp [s.size, t.size]⟩

theorem isSet_inter (s t : CpuSet) (i : ℕ) : (s.inter t).isSet i = (s.isSet i && t.isSet i) := by
  simp only [isSet_eq]
  by_cases h : i < cpuSetsize
  · have hw : i / 64 < 16 := by
      have : i < 1024 := h
      omega
    have hs : i / 64 < s.bits.length := by rw [s.size]; exact hw
    have ht : i / 64 < t.bits.length := by rw [t.size]; exact hw
    have hz : i / 64 < (List.zipWith (· &&& ·) s.bits t.bits).length := by
      rw [List.length_zipWith, s.size, t.size]; exact hw
    simp only [h, decide_true, Bool.true_and, word, inter, cpuWordBits]
    rw [List.getD_eq_getElem _ _ hs, List.getD_eq_getElem _ _ ht, List.getD_eq_getElem _ _ hz]
    simp
  · simp [h]

theorem inter_eq_left {s t : CpuSet} : s.inter t = s ↔ s ⊆ t := by
  constructor
  · intro h i hi
    rw [← h, isSet_inter, Bool.and_eq_true] at hi
    exact hi.2
  · intro h
    apply ext_isSet
    intro i _
    rw [isSet_inter, Bool.eq_iff_iff, Bool.and_eq_true]
    exact ⟨fun hi => hi.1, fun hi => ⟨hi, h i hi⟩⟩

end CpuSet

/-- A live thread's mask and the directory it stands in. -/
structure Standing where
  mask : CpuSet
  group : Str
deriving DecidableEq

structure Placement where
  tree : CpusetTree
  threads : KeyMap Tid Standing

/-- The directory whose `tasks` file `affinity_set` writes. -/
def tasksGroup (cpusetDir : Str) : Str :=
  if cpusetDir.isEmpty then baseCpuset else baseCpuset ++ '/' :: cpusetDir

theorem tasksPath_eq (cpusetDir : Str) : tasksPath cpusetDir = tasksGroup cpusetDir ++ "/tasks".toList := by
  unfold tasksPath tasksGroup
  split_ifs
  · rfl
  · simp

/-- May the thread be moved into the directory?  It must exist, with CPUs and memory nodes: without
them cpuset(7) has `ENOSPC`. -/
def accepts (allow : Tid → Str → Bool) (tree : CpusetTree) (tid : Tid) (group : Str) : Bool :=
  (tree.lookup group).any (fun c => decide (c.cpus ≠ CpuSet.new) && decide (c.mems ≠ []) && allow tid group)

/-- The CPUs of a directory. -/
def groupCpus (tree : CpusetTree) (group : Str) : CpuSet := ((tree.lookup group).map Cpuset.cpus).getD CpuSet.new

namespace Placement

variable (allow : Tid → Str → Bool)

/-- `sched_getaffinity`. -/
def getAffinity (w : Placement) (tid : Tid) : Option CpuSet := (w.threads.lookup tid).map Standing.mask

/-- Writing a thread into the `tasks` file of a directory.  By cpuset(7) the thread's CPUs become those
of its new cpuset. -/
def attach (w : Placement) (tid : Tid) (group : Str) : Placement :=
  if tid ∈ w.threads && accepts allow w.tree tid group then
    { w with threads := w.threads.insert tid ⟨groupCpus w.tree group, group⟩ }
  else w

/-- `EINVAL`. -/
def einval : ℕ := 22

/-- `sched_setaffinity` with its errno.  By sched_setaffinity(2) the set that is in force is the
intersection of the mask with the cpuset of the thread; it is `EINVAL` if that has no CPU, and `ESRCH`
if there is no such thread. -/
def setAffinity (w : Placement) (tid : Tid) (cpus : CpuSet) : Option ℕ × Placement :=
  match w.threads.lookup tid with
  | none => (some esrch, w)
  | some x =>
      let mask := cpus.inter (groupCpus w.tree x.group)
      if mask = CpuSet.new then (some einval, w)
      else (none, { w with threads := w.threads.insert tid { x with mask := mask } })

/-- `affinity_set`: the report, the calls made and the placement they leave. -/
def affinitySetIn (w : Placement) (tid : Tid) (cpus : CpuSet) (cpusetDir : Str) (topo : CpuTopology) :
    Bool × List PlaceCall × Placement :=
  if (w.getAffinity tid).any (· == cpus) then (false, [], w)
  else
    let calls := (if topo.cpusetEnabled then [PlaceCall.writeTask (tasksPath cpusetDir) tid] else []) ++
      [PlaceCall.setAffinity tid cpus]
    let w := if topo.cpusetEnabled then w.attach allow tid (tasksGroup cpusetDir) else w
    let out := w.setAffinity tid cpus
    (decide (out.1 = some esrch), calls, out.2)

/-- One thread of a correction: the reported threads, the calls and the placement so far. -/
def syncStep (topo : CpuTopology) (acc : List Tid × List PlaceCall × Placement)
    (e : Sigma fun _ : Tid => TaskEntry) : List Tid × List PlaceCall × Placement :=
  let out := acc.2.2.affinitySetIn allow e.1 e.2.cpus e.2.cpusetDir topo
  (if out.1 then acc.1 ++ [e.1] else acc.1, acc.2.1 ++ out.2.1, out.2.2)

/-- `affinity_sync`. -/
def affinitySyncIn (w : Placement) (pc : ProcCache) (topo : CpuTopology) :
    (List Tid × ProcCache) × List PlaceCall × Placement :=
  let out := pc.tasks.entries.foldl (syncStep allow topo) ([], [], w)
  ((out.1, out.1.foldl ProcCache.taskDel pc), out.2)

end Placement

/-! ### One thread -/

section

variable (allow : Tid → Str → Bool) (topo : CpuTopology) (tree : CpusetTree) (tid : Tid) (dir : Str)

/-- The standing of a thread after it was written into a directory, if that is done and accepted. -/
def moved (x : Standing) : Standing :=
  if topo.cpusetEnabled && accepts allow tree tid (tasksGroup dir) then
    ⟨groupCpus tree (tasksGroup dir), tasksGroup dir⟩
  else x

/-- The CPUs that the kernel leaves a thread of `affinity_set` a choice from. -/
def allowedCpus (x : Standing) : CpuSet := groupCpus tree (moved allow topo tree tid dir x).group

/-- The standing of a live thread after `affinity_set`. -/
def settled (cpus : CpuSet) (x : Standing) : Standing :=
  if x.mask = cpus then x
  else if cpus.inter (allowedCpus allow topo tree tid dir x) = CpuSet.new then moved allow topo tree tid dir x
  else { moved allow topo tree tid dir x with mask := cpus.inter (allowedCpus allow topo tree tid dir x) }

variable {allow topo tree tid dir}

theorem groupCpus_ne_new {group : Str} (h : accepts allow tree tid group = true) :
    groupCpus tree group ≠ CpuSet.new := by
  obtain ⟨c, hc, hp⟩ := (Option.any_eq_true _ _).mp h
  simp only [Bool.and_eq_true, decide_eq_true_eq] at hp
  unfold groupCpus
  rw [hc]
  exact hp.1.1

/-- **What `affinity_set` achieves**: the mask asked for is in force afterwards exactly when it was
before, or when it is not empty and within the CPUs of the directory the thread ends in. -/
theorem settled_mask_iff {cpus : CpuSet} {x : Standing} :
    (settled allow topo tree tid dir cpus x).mask = cpus ↔
      x.mask = cpus ∨ (cpus ≠ CpuSet.new ∧ cpus ⊆ allowedCpus allow topo tree tid dir x) := by
  unfold settled
  split_ifs with hm hcut
  · exact iff_of_true hm (Or.inl hm)
  · -- nothing is left of the mask: the thread has what its directory gives it
    rw [or_iff_right hm]
    constructor
    · intro h
      exfalso
      unfold moved at h
      split_ifs at h with ha
      · have hne := groupCpus_ne_new (Bool.and_eq_true_iff.mp ha).2
        have hself : cpus.inter (allowedCpus allow topo tree tid dir x) = cpus := by
          unfold allowedCpus moved
          rw [if_pos ha, inter_eq_left, ← h]
          exact fun _ hi => hi
        rw [hself, ← h] at hcut
        exact hne hcut
      · exact hm h
    · rintro ⟨hne, hsub⟩
      rw [inter_eq_left.mpr hsub] at hcut
      exact absurd hcut hne
  · rw [or_iff_right hm]
    have hne : cpus ≠ CpuSet.new := by
      rintro rfl
      refine hcut (ext_isSet fun i _ => ?_)
      rw [isSet_inter, isSet_new, Bool.false_and]
    rw [and_iff_right hne]
    exact inter_eq_left

/-- Doing it again changes nothing. -/
theorem settled_settled (cpus : CpuSet) (x : Standing) :
    settled allow topo tree tid dir cpus (settled allow topo tree tid dir cpus x) =
      settled allow topo tree tid dir cpus x := by
  by_cases hx : x.mask = cpus
  · have he : settled allow topo tree tid dir cpus x = x := if_pos hx
    rw [he, he]
  by_cases ha : (topo.cpusetEnabled && accepts allow tree tid (tasksGroup dir)) = true
  · -- the thread is written into the same directory again
    have hmoved : ∀ y, moved allow topo tree tid dir y = moved allow topo tree tid dir x := fun y => by
      unfold moved
      rw [if_pos ha, if_pos ha]
    by_cases hz : (settled allow topo tree tid dir cpus x).mask = cpus
    · exact if_pos hz
    · have hagain : settled allow topo tree tid dir cpus (settled allow topo tree tid dir cpus x) =
          if cpus.inter (allowedCpus allow topo tree tid dir x) = CpuSet.new then moved allow topo tree tid dir x
          else { moved allow topo tree tid dir x with mask := cpus.inter (allowedCpus allow topo tree tid dir x) } := by
        rw [settled, if_neg hz, allowedCpus, hmoved, allowedCpus]
      rw [hagain, settled, if_neg hx]
  · -- the thread stays in its directory
    have hmoved : ∀ y, moved allow topo tree tid dir y = y := fun y => if_neg ha
    have hallowed : ∀ y, allowedCpus allow topo tree tid dir y = groupCpus tree y.group := fun y => by
      rw [allowedCpus, hmoved]
    have hstep : ∀ y, settled allow topo tree tid dir cpus y = if y.mask = cpus then y
        else if cpus.inter (groupCpus tree y.group) = CpuSet.new then y
        else { y with mask := cpus.inter (groupCpus tree y.group) } := fun y => by
      rw [settled, hmoved, hallowed]
    rw [hstep x, if_neg hx]
    by_cases hcut : cpus.inter (groupCpus tree x.group) = CpuSet.new
    · rw [if_pos hcut, hstep, if_neg hx, if_pos hcut]
    · rw [if_neg hcut, hstep]
      split_ifs <;> rfl

end

namespace Placement

variable {allow : Tid → Str → Bool} {topo : CpuTopology}

/-- A write to the map of threads that does nothing to a thread that is not there. -/
theorem lookup_map_self (m : KeyMap Tid Standing) (tid u : Tid) :
    m.lookup u = if u = tid then (m.lookup tid).map id else m.lookup u := by
  split_ifs with hu
  · rw [hu, Option.map_id_fun, id]
  · rfl

theorem attach_tree (w : Placement) (tid : Tid) (group : Str) : (w.attach allow tid group).tree = w.tree := by
  unfold attach
  split_ifs <;> rfl

theorem attach_lookup (w : Placement) (tid : Tid) (group : Str) (u : Tid) :
    (w.attach allow tid group).threads.lookup u =
      if u = tid then (w.threads.lookup tid).map (fun x => if accepts allow w.tree tid group then
        ⟨groupCpus w.tree group, group⟩ else x) else w.threads.lookup u := by
  unfold attach
  by_cases ha : accepts allow w.tree tid group = true
  · simp only [ha, Bool.and_true, decide_eq_true_eq, if_true]
    split_ifs with ht hu hu
    · obtain ⟨x, hx⟩ := Option.isSome_iff_exists.mp (AList.lookup_isSome.mpr ht)
      rw [KeyMap.lookup_insert, if_pos hu, hx]
      rfl
    · rw [KeyMap.lookup_insert, if_neg hu]
    · rw [hu, AList.lookup_eq_none.mpr ht]
      rfl
    · rfl
  · have hf : accepts allow w.tree tid group = false := Bool.eq_false_iff.mpr ha
    simp only [hf, Bool.and_false, Bool.false_eq_true, if_false]
    exact lookup_map_self w.threads tid u

theorem setAffinity_tree (w : Placement) (tid : Tid) (cpus : CpuSet) : (w.setAffinity tid cpus).2.tree = w.tree := by
  unfold setAffinity
  cases w.threads.lookup tid with
  | none => rfl
  | some x =>
      simp only
      split_ifs <;> rfl

theorem setAffinity_fst (w : Placement) (tid : Tid) (cpus : CpuSet) :
    (w.setAffinity tid cpus).1 = some esrch ↔ tid ∉ w.threads := by
  unfold setAffinity
  cases hx : w.threads.lookup tid with
  | none => exact iff_of_true rfl (AList.lookup_eq_none.mp hx)
  | some x =>
      refine iff_of_false ?_ fun hn => hn (KeyMap.mem_of_lookup hx)
      simp only
      split_ifs <;> simp [einval, esrch]

theorem setAffinity_lookup (w : Placement) (tid : Tid) (cpus : CpuSet) (u : Tid) :
    (w.setAffinity tid cpus).2.threads.lookup u =
      if u = tid then (w.threads.lookup tid).map (fun x =>
        if cpus.inter (groupCpus w.tree x.group) = CpuSet.new then x
        else { x with mask := cpus.inter (groupCpus w.tree x.group) }) else w.threads.lookup u := by
  unfold setAffinity
  cases hx : w.threads.lookup tid with
  | none =>
      split_ifs with hu
      · rw [hu, hx]
        rfl
      · rfl
  | some x =>
      simp only [Option.map_some]
      split_ifs with hcut hu hu
      · rw [hu, hx]
      · rfl
      · rw [KeyMap.lookup_insert, if_pos hu]
      · rw [KeyMap.lookup_insert, if_neg hu]

/-- The placement in which `affinity_set` sets the mask. -/
def afterWrite (allow : Tid → Str → Bool) (topo : CpuTopology) (w : Placement) (tid : Tid) (dir : Str) :
    Placement :=
  if topo.cpusetEnabled then w.attach allow tid (tasksGroup dir) else w

theorem afterWrite_tree (w : Placement) (tid : Tid) (dir : Str) : (afterWrite allow topo w tid dir).tree = w.tree := by
  unfold afterWrite
  split_ifs
  · exact attach_tree w tid _
  · rfl

theorem afterWrite_lookup (w : Placement) (tid : Tid) (dir : Str) (u : Tid) :
    (afterWrite allow topo w tid dir).threads.lookup u =
      if u = tid then (w.threads.lookup tid).map (moved allow topo w.tree tid dir) else w.threads.lookup u := by
  unfold afterWrite
  by_cases hon : topo.cpusetEnabled = true
  · rw [if_pos hon, attach_lookup]
    congr 2
    funext x
    simp [moved, hon]
  · have hoff : topo.cpusetEnabled = false := Bool.eq_false_iff.mpr hon
    rw [if_neg hon]
    have hid : moved allow topo w.tree tid dir = id := by
      funext x
      simp [moved, hoff]
    rw [hid]
    exact lookup_map_self w.threads tid u

theorem mem_afterWrite (w : Placement) (tid : Tid) (dir : Str) (u : Tid) :
    u ∈ (afterWrite allow topo w tid dir).threads ↔ u ∈ w.threads := by
  rw [← AList.lookup_isSome, ← AList.lookup_isSome, afterWrite_lookup]
  split_ifs with hu
  · rw [hu, Option.isSome_map]
  · rfl

/-- The mask is in force already, and no call is made, or the thread is written and its mask set. -/
theorem affinitySetIn_case (allow : Tid → Str → Bool) (topo : CpuTopology) (w : Placement) (tid : Tid)
    (cpus : CpuSet) (dir : Str) :
    ((∃ x, w.threads.lookup tid = some x ∧ x.mask = cpus) ∧
        w.affinitySetIn allow tid cpus dir topo = (false, [], w)) ∨
      ((∀ x, w.threads.lookup tid = some x → x.mask ≠ cpus) ∧
        ∃ calls, w.affinitySetIn allow tid cpus dir topo =
          (decide (((afterWrite allow topo w tid dir).setAffinity tid cpus).1 = some esrch), calls,
            ((afterWrite allow topo w tid dir).setAffinity tid cpus).2)) := by
  unfold affinitySetIn getAffinity
  cases hx : w.threads.lookup tid with
  | none => exact Or.inr ⟨fun x h => absurd h (by simp), _, rfl⟩
  | some x =>
      by_cases hm : x.mask = cpus
      · refine Or.inl ⟨⟨x, rfl, hm⟩, ?_⟩
        simp [hm]
      · have hany : ¬ ((some x).map Standing.mask).any (· == cpus) = true := by simp [hm]
        rw [if_neg hany]
        refine Or.inr ⟨fun y hy => ?_, _, rfl⟩
        obtain rfl := Option.some.inj hy
        exact hm

theorem affinitySetIn_fst (allow : Tid → Str → Bool) (topo : CpuTopology) (w : Placement) (tid : Tid)
    (cpus : CpuSet) (dir : Str) :
    (w.affinitySetIn allow tid cpus dir topo).1 = decide (tid ∉ w.threads) := by
  rcases affinitySetIn_case allow topo w tid cpus dir with ⟨⟨x, hx, -⟩, he⟩ | ⟨-, calls, he⟩
  · rw [he]
    exact (decide_eq_false fun hn => hn (KeyMap.mem_of_lookup hx)).symm
  · rw [he]
    exact decide_eq_decide.mpr ((setAffinity_fst _ _ _).trans (not_congr (mem_afterWrite w tid dir tid)))

theorem affinitySetIn_tree (w : Placement) (tid : Tid) (cpus : CpuSet) (dir : Str) :
    (w.affinitySetIn allow tid cpus dir topo).2.2.tree = w.tree := by
  rcases affinitySetIn_case allow topo w tid cpus dir with ⟨-, he⟩ | ⟨-, calls, he⟩
  · rw [he]
  · rw [he]
    exact (setAffinity_tree _ _ _).trans (afterWrite_tree w tid dir)

/-- `affinity_set` settles its thread and leaves the others alone. -/
theorem affinitySetIn_lookup (w : Placement) (tid : Tid) (cpus : CpuSet) (dir : Str) (u : Tid) :
    (w.affinitySetIn allow tid cpus dir topo).2.2.threads.lookup u =
      if u = tid then (w.threads.lookup tid).map (settled allow topo w.tree tid dir cpus) else w.threads.lookup u := by
  rcases affinitySetIn_case allow topo w tid cpus dir with ⟨⟨x, hx, hm⟩, he⟩ | ⟨hne, calls, he⟩
  · rw [he]
    split_ifs with hu
    · rw [hu, hx]
      exact congrArg some (if_pos hm).symm
    · rfl
  · rw [he, setAffinity_lookup, afterWrite_lookup, if_pos rfl, afterWrite_tree]
    split_ifs with hu
    · cases hx : w.threads.lookup tid with
      | none => rfl
      | some x =>
          simp only [Option.map_some]
          rw [settled, if_neg (hne x hx)]
          rfl
    · rw [afterWrite_lookup, if_neg hu]

/-- The operating system's answers in a placement, as `affinitySetRun` takes them. -/
def envAt (allow : Tid → Str → Bool) (topo : CpuTopology) (w : Placement) (dir : Str) (mk : DirCall → Bool) :
    Env :=
  { getAffinity := w.getAffinity
    setErrno := fun tid cpus => ((afterWrite allow topo w tid dir).setAffinity tid cpus).1
    createDir := mk }

/-- In a placement the answers that `affinity_set` asks for are definite. -/
theorem affinitySetIn_run (w : Placement) (tid : Tid) (cpus : CpuSet) (dir : Str) (mk : DirCall → Bool) :
    ((w.affinitySetIn allow tid cpus dir topo).1, (w.affinitySetIn allow tid cpus dir topo).2.1) =
      affinitySetRun (envAt allow topo w dir mk) tid cpus dir topo := by
  have hget : (envAt allow topo w dir mk).getAffinity = w.getAffinity := rfl
  unfold affinitySetIn affinitySetRun
  rw [hget]
  by_cases h : (w.getAffinity tid).any (· == cpus) = true
  · rw [if_pos h, if_pos h]
  · rw [if_neg h, if_neg h]
    rfl

/-! ### A correction -/

/-- The threads that are live. -/
def live (w : Placement) (t : Tid) : Bool := decide (t ∈ w.threads)

theorem mem_affinitySetIn (w : Placement) (tid : Tid) (cpus : CpuSet) (dir : Str) (u : Tid) :
    u ∈ (w.affinitySetIn allow tid cpus dir topo).2.2.threads ↔ u ∈ w.threads := by
  rw [← AList.lookup_isSome, ← AList.lookup_isSome, affinitySetIn_lookup]
  split_ifs with hu
  · rw [hu, Option.isSome_map]
  · rfl

theorem syncStep_fst (acc : List Tid × List PlaceCall × Placement) (e : Sigma fun _ : Tid => TaskEntry) :
    (syncStep allow topo acc e).1 = if acc.2.2.live e.1 then acc.1 else acc.1 ++ [e.1] := by
  have hfst := affinitySetIn_fst allow topo acc.2.2 e.1 e.2.cpus e.2.cpusetDir
  simp only [syncStep, hfst, live]
  by_cases h : e.1 ∈ acc.2.2.threads <;> simp [h]

theorem syncStep_live (acc : List Tid × List PlaceCall × Placement) (e : Sigma fun _ : Tid => TaskEntry) :
    (syncStep allow topo acc e).2.2.live = acc.2.2.live := by
  funext u
  exact decide_eq_decide.mpr (mem_affinitySetIn acc.2.2 e.1 e.2.cpus e.2.cpusetDir u)

theorem foldl_syncStep_fst (live : Tid → Bool) : ∀ (es : List (Sigma fun _ : Tid => TaskEntry))
    (acc : List Tid × List PlaceCall × Placement), acc.2.2.live = live →
    (es.foldl (syncStep allow topo) acc).1 = acc.1 ++ es.filterMap (fun e => if !live e.1 then some e.1 else none)
  | [], acc, _ => by simp
  | e :: es, acc, hl => by
      have hl' : (syncStep allow topo acc e).2.2.live = live := (syncStep_live acc e).trans hl
      rw [List.foldl_cons, foldl_syncStep_fst live es _ hl', syncStep_fst, hl, List.filterMap_cons]
      cases live e.1 <;> simp

/-- The reported threads and the cache are those of `affinitySync`. -/
theorem affinitySyncIn_fst (pc : ProcCache) (w : Placement) (env : Env) :
    (w.affinitySyncIn allow pc topo).1 = pc.affinitySync (fun _ => env.over w.live) topo := by
  have hdead : (pc.tasks.entries.foldl (syncStep allow topo) ([], [], w)).1 =
      pc.deadTids (fun _ => env.over w.live) topo := by
    rw [foldl_syncStep_fst w.live _ _ rfl]
    simp [ProcCache.deadTids]
  exact congrArg (fun dead => (dead, dead.foldl ProcCache.taskDel pc)) hdead

/-- The directories and one thread, as a correction leaves them. -/
theorem affinitySyncIn_get (allow : Tid → Str → Bool) (topo : CpuTopology) (pc : ProcCache) (w : Placement)
    (u : Tid) :
    ((w.affinitySyncIn allow pc topo).2.2.tree, (w.affinitySyncIn allow pc topo).2.2.threads.lookup u) =
      (w.tree, match pc.tasks.lookup u with
        | none => w.threads.lookup u
        | some e => (w.threads.lookup u).map (settled allow topo w.tree u e.cpusetDir e.cpus)) := by
  let get (acc : List Tid × List PlaceCall × Placement) := (acc.2.2.tree, acc.2.2.threads.lookup u)
  have hframe : ∀ e : Sigma fun _ : Tid => TaskEntry, e.1 ≠ u → ∀ acc,
      get (syncStep allow topo acc e) = get acc := by
    intro e he acc
    simp only [get, syncStep, affinitySetIn_tree, affinitySetIn_lookup, if_neg he.symm]
  cases hu : pc.tasks.lookup u with
  | none =>
      refine Sweep.foldl_frame get pc.tasks.entries ([], [], w) fun e he acc => hframe e ?_ acc
      rintro rfl
      exact AList.lookup_eq_none.mp hu (AList.mem_keys.mpr (List.mem_map_of_mem he))
  | some e =>
      refine Sweep.foldl_write get (fun e : Sigma fun _ : Tid => TaskEntry => e.1 = u) pc.tasks.entries ([], [], w)
        (fun e' _ he' acc => hframe e' he' acc) (fun e' hm he' acc hacc => ?_) (Or.inl rfl)
        (Or.inr ⟨⟨u, e⟩, AList.mem_lookup_iff.mp hu, rfl⟩)
      obtain ⟨u', e'⟩ := e'
      obtain rfl : u' = u := he'
      -- the keys of the cache are distinct
      obtain rfl : e = e' := Option.some.inj (hu.symm.trans (AList.mem_lookup_iff.mpr hm))
      simp only [get, syncStep, affinitySetIn_tree, affinitySetIn_lookup, if_true]
      rcases hacc with hacc | hacc
      · obtain ⟨htree, hlook⟩ := Prod.mk.inj hacc
        rw [htree, hlook]
      · obtain ⟨htree, hlook⟩ := Prod.mk.inj hacc
        rw [htree, hlook, Option.map_map]
        congr 2
        funext x
        exact settled_settled e.cpus x

theorem affinitySyncIn_lookup (pc : ProcCache) (w : Placement) (u : Tid) :
    (w.affinitySyncIn allow pc topo).2.2.threads.lookup u =
      match pc.tasks.lookup u with
      | none => w.threads.lookup u
      | some e => (w.threads.lookup u).map (settled allow topo w.tree u e.cpusetDir e.cpus) :=
  (Prod.mk.inj (affinitySyncIn_get allow topo pc w u)).2

/-- The reported threads are the bound ones that are not live. -/
theorem mem_reported (allow : Tid → Str → Bool) (topo : CpuTopology) (pc : ProcCache) (w : Placement) (t : Tid) :
    t ∈ (w.affinitySyncIn allow pc topo).1.1 ↔ t ∈ pc.tasks ∧ t ∉ w.threads := by
  rw [affinitySyncIn_fst pc w allAlive]
  show t ∈ pc.deadTids (fun _ => allAlive.over w.live) topo ↔ _
  rw [ProcCache.mem_deadTids]
  unfold ProcCache.Dead
  simp only [affinitySet_over, live, Bool.not_eq_true', decide_eq_false_iff_not, exists_and_right]
  rw [← Option.isSome_iff_exists, AList.lookup_isSome]

/-- The mask of every live bound thread is the one its entry asks for. -/
def InForce (pc : ProcCache) (w : Placement) : Prop :=
  ∀ t e x, pc.tasks.lookup t = some e → w.threads.lookup t = some x → x.mask = e.cpus

/-- **What a correction enforces.**  Every live bound thread has the mask of its entry afterwards,
exactly when it had it before or the mask is not empty and within the CPUs of the directory that
the thread ends in; no other thread and no directory is touched, whatever the order of the map;
and the bound threads that are not live are reported. -/
theorem affinity_sync_enforces (allow : Tid → Str → Bool) (topo : CpuTopology) (pc : ProcCache) (w : Placement) :
    (∀ t e x, pc.tasks.lookup t = some e → w.threads.lookup t = some x →
      ∃ x', (w.affinitySyncIn allow pc topo).2.2.threads.lookup t = some x' ∧
        (x'.mask = e.cpus ↔ x.mask = e.cpus ∨
          (e.cpus ≠ CpuSet.new ∧ e.cpus ⊆ allowedCpus allow topo w.tree t e.cpusetDir x))) ∧
    (∀ t, t ∉ pc.tasks → (w.affinitySyncIn allow pc topo).2.2.threads.lookup t = w.threads.lookup t) ∧
    (w.affinitySyncIn allow pc topo).2.2.tree = w.tree ∧
    (∀ t, t ∈ (w.affinitySyncIn allow pc topo).1.1 ↔ t ∈ pc.tasks ∧ t ∉ w.threads) := by
  refine ⟨fun t e x he hx => ?_, fun t ht => ?_, (Prod.mk.inj (affinitySyncIn_get allow topo pc w 0)).1,
    mem_reported allow topo pc w⟩
  · refine ⟨_, ?_, settled_mask_iff⟩
    rw [affinitySyncIn_lookup, he, hx]
    rfl
  · rw [affinitySyncIn_lookup, AList.lookup_eq_none.mpr ht]

/-- **A second correction changes nothing**: it reports no thread and leaves every thread as it is,
and it makes no call at all when the first one has put every mask in force. -/
theorem affinity_sync_settles (allow : Tid → Str → Bool) (topo : CpuTopology) (pc : ProcCache) (w : Placement) :
    let first := w.affinitySyncIn allow pc topo
    let second := first.2.2.affinitySyncIn allow first.1.2 topo
    second.1.1 = [] ∧ (∀ t, second.2.2.threads.lookup t = first.2.2.threads.lookup t) ∧
      (InForce first.1.2 first.2.2 → second = (([], first.1.2), [], first.2.2)) := by
  intro first second
  have hlive : ∀ t, t ∈ first.2.2.threads ↔ t ∈ w.threads := fun t => by
    rw [← AList.lookup_isSome, ← AList.lookup_isSome, affinitySyncIn_lookup]
    cases pc.tasks.lookup t with
    | none => rfl
    | some e => rw [Option.isSome_map]
  -- the cache keeps the entries of the live threads
  have hcache : ∀ t e, first.1.2.tasks.lookup t = some e ↔ pc.tasks.lookup t = some e ∧ t ∈ w.threads := by
    intro t e
    show (first.1.1.foldl ProcCache.taskDel pc).tasks.lookup t = some e ↔ _
    rw [ProcCache.foldl_taskDel_tasks, KeyMap.lookup_eraseAll]
    split_ifs with hd
    · exact iff_of_false (by simp) fun h => ((mem_reported allow topo pc w t).mp hd).2 h.2
    · refine ⟨fun h => ⟨h, ?_⟩, fun h => h.1⟩
      by_contra hn
      exact hd ((mem_reported allow topo pc w t).mpr ⟨KeyMap.mem_of_lookup h, hn⟩)
  have hmem : ∀ t ∈ first.1.2.tasks, t ∈ first.2.2.threads := fun t ht => by
    obtain ⟨e, he⟩ := Option.isSome_iff_exists.mp (AList.lookup_isSome.mpr ht)
    exact (hlive t).mpr ((hcache t e).mp he).2
  have hnone : second.1.1 = [] := by
    refine List.eq_nil_iff_forall_not_mem.mpr fun t ht => ?_
    obtain ⟨hb, hn⟩ := (mem_reported allow topo first.1.2 first.2.2 t).mp ht
    exact hn (hmem t hb)
  refine ⟨hnone, fun t => ?_, fun hforce => ?_⟩
  · show (first.2.2.affinitySyncIn allow first.1.2 topo).2.2.threads.lookup t = _
    rw [affinitySyncIn_lookup]
    cases he : first.1.2.tasks.lookup t with
    | none => rfl
    | some e =>
        have htree : first.2.2.tree = w.tree := (Prod.mk.inj (affinitySyncIn_get allow topo pc w t)).1
        simp only [htree, first, affinitySyncIn_lookup, ((hcache t e).mp he).1, Option.map_map]
        congr 1
        funext x
        exact settled_settled e.cpus x
  · have hfold : first.1.2.tasks.entries.foldl (syncStep allow topo) ([], [], first.2.2) = ([], [], first.2.2) := by
      refine List.foldlRecOn (motive := fun acc => acc = ([], [], first.2.2)) _ _ rfl fun acc hacc e he => ?_
      subst hacc
      have hl : first.1.2.tasks.lookup e.1 = some e.2 := AList.mem_lookup_iff.mpr he
      obtain ⟨x, hx⟩ := Option.isSome_iff_exists.mp (AList.lookup_isSome.mpr (hmem e.1 (KeyMap.mem_of_lookup hl)))
      have hm : x.mask = e.2.cpus := hforce e.1 e.2 x hl hx
      simp [syncStep, affinitySetIn, getAffinity, hx, hm]
    show affinitySyncIn allow first.2.2 first.1.2 topo = _
    unfold affinitySyncIn
    rw [hfold]
    rfl

end Placement

end AetherOptExt
