import AetherOptExt.AutoAllocation
import AetherOptExt.EntryPackages
import AetherOptExt.ProcMode

/-! # The main loop (`main.rs`)

One round reloads the configuration when inotify or the modification time asks for it, rebuilds
the cache, handles the waiting events, corrects the affinities and, in proc mode, allocates
unknown applications every 30 rounds.  Each part of a round is a step here, with what it meets
as input; the whitelist that `comm_map_init` writes is left out, nothing in user space reads it.

`MainLoop.stale` is a history variable: the configuration has changed and no rebuild has looked
at every process since. -/

namespace AetherOptExt

/-! ### The parts that change the configuration -/

/-- What stays the same while the daemon runs: the JSON library, and the CPUs that `cpu::detect`
has found. -/
structure Device where
  parse : Str → Option JsonValue
  stringifyPretty : JsonValue → Str
  big : Str
  mid : Str
  little : Str

/-- What a reload meets: the outcomes of creating directories, the file's text and modification
time, and the text of the cache file. -/
structure Reload where
  dirs : ℕ → DirCall → Bool
  data : Option Str
  mtime : Option ℕ
  cache : Option Str

/-- `hot_reload`: the new configuration, `none` when the old one is kept. -/
def hotReload (d : Device) (r : Reload) (cfg : AppConfig) : Option AppConfig :=
  (AppConfig.load d.parse r.dirs cfg.topo r.data r.mtime).map (AppConfig.mergeCache d.parse r.cache)

/-- What an allocation meets: the listing of `/proc`, the text of the cache file, and whether
the file can be written. -/
structure Allocation where
  dir : Option (List UnknownReading)
  cache : Option Str
  written : Bool

/-- The automatic allocation of the main loop: the configuration after `merge`, `none` when no
application was found. -/
def autoAllocate (d : Device) (a : Allocation) (cfg : AppConfig) : Option AppConfig :=
  let u := scanUnknown cfg.pkgSet cfg.wild a.dir
  if u.all (fun app => cache.isBlacklisted app.pkg) then none
  else
    let file := u.foldl (fun file app =>
      if a.written then (cache.save d.parse d.stringifyPretty file app.pkg u d.big d.mid d.little).or file else file)
      a.cache
    some (cfg.mergeCache d.parse file)

/-! ### The loop -/

/-- Where the daemon is in a round.  It receives the first event, drains the others and corrects
the affinities in eBPF mode; it corrects them and allocates in proc mode. -/
inductive LoopPlace where
  | poll
  | compare
  | sync
  | receive
  | drain
  | correct
  | affinity
  | allocate
deriving DecidableEq

/-- The variables of the loop; `inotify` says that the descriptor is valid. -/
structure MainLoop where
  place : LoopPlace
  cfg : AppConfig
  inotify : Bool
  bpfOk : Bool
  needFullScan : Bool
  proc : ProcState
  applied : AppliedMap
  cacheScan : ℕ
  configChanged : Bool
  stale : Bool

/-- A part of a round, with what it meets: the answer of `read_inotify` and whether the watch can
be renewed, the modification time, the listing of `/proc`, an event, whether the time for a
correction has come. -/
inductive LoopInput where
  | readInotify (ev : Option ℕ) (r : Reload) (rewatched : Bool)
  | metadata (mtime : Option ℕ) (r : Reload)
  | fullScan (dir : Option (List ProcReading))
  | procSync (snap : ProcSnapshot)
  | dispatch (env : Env) (event : ProcEvent)
  | idle
  | disconnected
  | correct (elapsed : Bool) (env : Tid → Env)
  | affinity (elapsed : Bool) (env : Tid → Env)
  | allocate (a : Allocation)

namespace MainLoop

variable (d : Device)

/-- A call of `hot_reload`; its answer is assigned to `config_changed`. -/
def reload (r : Reload) (s : MainLoop) : MainLoop :=
  match hotReload d r s.cfg with
  | none => { s with configChanged := false }
  | some cfg => { s with cfg := cfg, configChanged := true, stale := true }

/-- Does the modification time ask for a reload? -/
def newer (s : MainLoop) (mtime : Option ℕ) : Bool := !s.inotify && mtime.any (fun mt => decide (s.cfg.mtime < mt))

/-- Is it the round of an allocation? -/
def allocates (s : MainLoop) : Bool := decide (30 ≤ s.cacheScan + 1)

/-- The start of a round: `read_inotify`, `hot_reload` and `rewatch_inotify`. -/
def readInotify (ev : Option ℕ) (r : Reload) (rewatched : Bool) (s : MainLoop) : MainLoop :=
  let s := { s with configChanged := false, place := .compare }
  match (if s.inotify then ev else none) with
  | some 1 => s.reload d r
  | some 2 => { s.reload d r with inotify := rewatched }
  | _ => s

/-- `proc_cache_sync` with the news of a change. -/
def procSync (snap : ProcSnapshot) (s : MainLoop) : MainLoop :=
  let proc := if s.configChanged then { s.proc with scanAllProc := true } else s.proc
  { s with
    place := .affinity, proc := (procCacheSync proc s.cfg snap).2
    stale := if proc.scanAllProc then false else s.stale }

/-- The parts of a round. -/
def effect (s : MainLoop) : LoopInput → MainLoop
  | .readInotify ev r rewatched => s.readInotify d ev r rewatched
  | .metadata mtime r => { (if s.newer mtime then s.reload d r else s) with place := .sync }
  | .fullScan dir =>
      if s.configChanged || s.needFullScan then
        let out := fullScan s.cfg dir s.proc.cache s.applied
        { s with
          place := .receive, proc := { s.proc with cache := out.1 }, applied := out.2
          needFullScan := false, stale := false }
      else { s with place := .receive }
  | .procSync snap => s.procSync snap
  | .dispatch env event =>
      let out := eventDispatch env event s.cfg s.proc.cache s.applied
      { s with place := .drain, proc := { s.proc with cache := out.1 }, applied := out.2 }
  | .idle => { s with place := .correct }
  | .disconnected => { s with place := .correct, bpfOk := false, applied := ∅, needFullScan := true }
  | .correct elapsed env =>
      if elapsed then
        let out := correctAffinity env s.cfg s.proc.cache s.applied
        { s with place := .poll, proc := { s.proc with cache := out.1 }, applied := out.2 }
      else { s with place := .poll }
  | .affinity elapsed env =>
      if s.proc.forceAffinity || elapsed then
        { s with
          place := .allocate
          proc := { s.proc with cache := (s.proc.cache.affinitySync env s.cfg.topo).2, forceAffinity := false } }
      else { s with place := .allocate }
  | .allocate a =>
      if s.allocates then
        match autoAllocate d a s.cfg with
        | none => { s with place := .poll, cacheScan := 0 }
        | some cfg => { s with place := .poll, cacheScan := 0, cfg := cfg, stale := true }
      else { s with place := .poll, cacheScan := s.cacheScan + 1 }

/-- Which part may come next. -/
def enabled (s : MainLoop) : LoopInput → Bool
  | .readInotify .. => s.place == .poll
  | .metadata .. => s.place == .compare
  | .fullScan _ => s.place == .sync && s.bpfOk
  | .procSync _ => s.place == .sync && !s.bpfOk
  | .dispatch .. => s.place == .receive || s.place == .drain
  | .idle => s.place == .receive || s.place == .drain
  | .disconnected => s.place == .receive
  | .correct .. => s.place == .correct
  | .affinity .. => s.place == .affinity
  | .allocate _ => s.place == .allocate

def step (s : MainLoop) (a : LoopInput) : Option MainLoop := if s.enabled a then some (s.effect d a) else none

/-- The loop is entered: nothing has been scanned, and both flags that ask for it are up. -/
structure Init (s : MainLoop) : Prop where
  place : s.place = .poll
  needFullScan : s.needFullScan = true
  proc : s.proc = ProcState.new
  cacheScan : s.cacheScan = 0
  stale : s.stale = true

variable {d} {s s' : MainLoop} {a : LoopInput}

theorem step_eq_some : s.step d a = some s' ↔ s.enabled a = true ∧ s' = s.effect d a := by
  unfold step
  split_ifs with h
  · rw [Option.some.injEq, eq_comm]
    exact (and_iff_right h).symm
  · simp [h]

end MainLoop

end AetherOptExt
