import AetherOptExt.EntryPackages
import AetherOptExt.Lib.Runs
import AetherOptExt.Lib.Text

/-! # Watching the configuration file (`main.rs`)

The daemon loads the file, registers an inotify watch, and then looks in every round of its main
loop for an event, or, without a watch, for a newer modification time.  Each access to the file
is a step of its own, and a writer may come before any of them: it writes in place, deletes,
replaces the file or moves it away.  A write stamps the file with the next tick of a clock, and
a new file is known by the tick of its creation; a moved file can be written on elsewhere, but it
does not come back to its old place.

`Watcher.readOf` and `Watcher.cfgOf` are history variables: the file as the last load has read
it, and as the configuration in force was read from it.  `LoadedFrom` says what the latter
means. -/

namespace AetherOptExt

structure File where
  inode : ℕ
  bytes : List UInt8
  mtime : ℕ
deriving DecidableEq

/-- `fs::read_to_string`. -/
def readToString (file : Option File) : Option Str := file.bind (fun f => Str.fromUtf8 f.bytes)

/-! ### inotify -/

inductive InotifyEvent where
  | closeWrite
  | deleteSelf
  | moveSelf
  | ignored
deriving DecidableEq

namespace InotifyEvent

/-- The events that ask for a reload. -/
def reload : InotifyEvent → Bool
  | ignored => false
  | _ => true

/-- The events that ask for a new watch. -/
def rewatch : InotifyEvent → Bool
  | deleteSelf => true
  | moveSelf => true
  | _ => false

end InotifyEvent

/-- An open inotify instance: the watched inodes and the unread events. -/
structure Inotify where
  watches : List ℕ
  events : List InotifyEvent

namespace Inotify

/-- Something happens to an inode. -/
def notify (i : Inotify) (inode : ℕ) (evs : List InotifyEvent) : Inotify :=
  if inode ∈ i.watches then { i with events := i.events ++ evs } else i

/-- An inode is deleted, and its watch with it. -/
def remove (i : Inotify) (inode : ℕ) : Inotify :=
  { i.notify inode [.deleteSelf, .ignored] with watches := i.watches.filter (· != inode) }

/-- The events that fit into the buffer of 1024 bytes. -/
def batch (i : Inotify) : List InotifyEvent := i.events.take 64

end Inotify

/-- `read_inotify`: nothing, 1 for a reload or 2 for a reload and a new watch; with the instance
afterwards. -/
def readInotify : Option Inotify → Option ℕ × Option Inotify
  | none => (none, none)
  | some i =>
      (if i.batch.any InotifyEvent.reload then some (if i.batch.any InotifyEvent.rewatch then 2 else 1) else none,
        some { i with events := i.events.drop 64 })

/-! ### The daemon and the writer -/

/-- What a load is followed by: the watch of `init_inotify`, the comparison of the modification
times, `rewatch_inotify`, or the rest of the round. -/
inductive Next where
  | boot
  | compare
  | rewatch
  | body
deriving DecidableEq

/-- Where the daemon is; `stat` is in `load`, between the read and the metadata call. -/
inductive Place where
  | read (next : Next)
  | stat (next : Next) (l : Loaded × Bool)
  | init
  | top
  | rewatch
  | compare
  | body
  | stopped

/-- After a load that has succeeded. -/
def Next.loaded : Next → Place
  | boot => .init
  | compare => .compare
  | rewatch => .rewatch
  | body => .body

/-- After a load that has failed: the daemon ends at start, and keeps the old configuration later. -/
def Next.failed : Next → Place
  | boot => .stopped
  | next => next.loaded

structure Watcher where
  file : Option File
  clock : ℕ
  inotify : Option Inotify
  place : Place
  cfg : Option AppConfig
  readOf : Option File
  cfgOf : Option File

inductive WriterAction where
  | write (bytes : List UInt8)
  | delete
  | replace (bytes : List UInt8)
  | moveAway
  | elsewhere (inode : ℕ) (deleted : Bool)

/-- A step of the daemon, with what it meets: the outcomes of creating directories, the text of
the cache file, and whether a watch can be registered. -/
inductive WatchAction where
  | writer (w : WriterAction)
  | read (dirs : ℕ → DirCall → Bool)
  | metadata (cache : Option Str)
  | merge (cache : Option Str)
  | register (ok : Bool)
  | readInotify
  | compare
  | round

namespace Watcher

variable (parse : Str → Option JsonValue) (topo : CpuTopology)

def writerStep (s : Watcher) : WriterAction → Option Watcher
  | .write bytes =>
      s.file.map (fun f => { s with
        file := some { f with bytes := bytes, mtime := s.clock }
        clock := s.clock + 1
        inotify := s.inotify.map (·.notify f.inode [.closeWrite]) })
  | .delete => s.file.map (fun f => { s with file := none, inotify := s.inotify.map (·.remove f.inode) })
  | .replace bytes =>
      some { s with
        file := some ⟨s.clock, bytes, s.clock⟩
        clock := s.clock + 1
        inotify := s.file.elim s.inotify (fun f => s.inotify.map (·.remove f.inode)) }
  | .moveAway =>
      s.file.map (fun f => { s with file := none, inotify := s.inotify.map (·.notify f.inode [.moveSelf]) })
  | .elsewhere inode deleted =>
      if s.file.any (fun f => f.inode == inode) then none
      else some { s with
        inotify := s.inotify.map (fun i => if deleted then i.remove inode else i.notify inode [.closeWrite]) }

/-- `AppConfig::load` up to the metadata call. -/
def loadRead (dirs : ℕ → DirCall → Bool) (next : Next) (s : Watcher) : Watcher :=
  { s with
    readOf := s.file
    place := match loadParse parse dirs topo (readToString s.file) with
      | none => next.failed
      | some l => .stat next l }

/-- The metadata call of `AppConfig::load` and what its callers do with the result. -/
def loadStat (cache : Option Str) (next : Next) (l : Loaded × Bool) (s : Watcher) : Watcher :=
  match s.file with
  | none => { s with place := next.failed }
  | some f =>
      { s with
        cfg := some ((AppConfig.ofLoaded topo l f.mtime).mergeCache parse cache)
        cfgOf := s.readOf
        place := next.loaded }

/-- `init_inotify`. -/
def initInotify (ok : Bool) (s : Watcher) : Option Watcher :=
  if ok then s.file.map (fun f => { s with inotify := some ⟨[f.inode], []⟩, place := .top })
  else some { s with inotify := none, place := .top }

/-- `rewatch_inotify`. -/
def rewatchInotify (ok : Bool) (s : Watcher) : Option Watcher :=
  match s.inotify with
  | none => some { s with place := .compare }
  | some i =>
      if ok then
        s.file.map (fun f => { s with inotify := some { i with watches := f.inode :: i.watches }, place := .compare })
      else some { s with inotify := none, place := .compare }

/-- The first part of a round. -/
def roundTop (s : Watcher) : Watcher :=
  let out := AetherOptExt.readInotify s.inotify
  { s with
    inotify := out.2
    place := match out.1 with
      | some 1 => .read .compare
      | some 2 => .read .rewatch
      | _ => .compare }

/-- Is the file newer than the configuration in force? -/
def newer (s : Watcher) : Bool := s.file.any (fun f => s.cfg.any (fun cfg => decide (cfg.mtime < f.mtime)))

def step (s : Watcher) : WatchAction → Option Watcher
  | .writer w => s.writerStep w
  | .read dirs =>
      match s.place with
      | .read next => some (s.loadRead parse topo dirs next)
      | _ => none
  | .metadata cache =>
      match s.place with
      | .stat next l => some (s.loadStat parse topo cache next l)
      | _ => none
  | .merge cache =>
      match s.place with
      | .init => some { s with cfg := s.cfg.map (AppConfig.mergeCache parse cache) }
      | .body => some { s with cfg := s.cfg.map (AppConfig.mergeCache parse cache) }
      | _ => none
  | .register ok =>
      match s.place with
      | .init => s.initInotify ok
      | .rewatch => s.rewatchInotify ok
      | _ => none
  | .readInotify =>
      match s.place with
      | .top => some s.roundTop
      | _ => none
  | .compare =>
      match s.place with
      | .compare => some { s with place := if s.inotify.isNone && s.newer then .read .body else .body }
      | _ => none
  | .round =>
      match s.place with
      | .body => some { s with place := .top }
      | _ => none

/-- The daemon starts. -/
structure Init (s : Watcher) : Prop where
  place : s.place = .read .boot
  inotify : s.inotify = none
  cfg : s.cfg = none
  readOf : s.readOf = none
  cfgOf : s.cfgOf = none
  past : ∀ f, s.file = some f → f.inode < s.clock ∧ f.mtime < s.clock

variable {parse : Str → Option JsonValue} {topo : CpuTopology}

/-! ### The cases of a step -/

/-- What one step does. -/
inductive StepCase (parse : Str → Option JsonValue) (topo : CpuTopology) (s : Watcher) : WatchAction → Watcher → Prop
  | writer {w : WriterAction} {s' : Watcher} (h : s.writerStep w = some s') : StepCase parse topo s (.writer w) s'
  | read {dirs : ℕ → DirCall → Bool} {next : Next} (hp : s.place = .read next) :
      StepCase parse topo s (.read dirs) (s.loadRead parse topo dirs next)
  | metadata {cache : Option Str} {next : Next} {l : Loaded × Bool} (hp : s.place = .stat next l) :
      StepCase parse topo s (.metadata cache) (s.loadStat parse topo cache next l)
  | merge {cache : Option Str} (hp : s.place = .init ∨ s.place = .body) :
      StepCase parse topo s (.merge cache) { s with cfg := s.cfg.map (AppConfig.mergeCache parse cache) }
  | watched {f : File} (hp : s.place = .init) (hf : s.file = some f) :
      StepCase parse topo s (.register true) { s with inotify := some ⟨[f.inode], []⟩, place := .top }
  | unwatched (hp : s.place = .init) : StepCase parse topo s (.register false) { s with inotify := none, place := .top }
  | rewatched {f : File} {i : Inotify} (hp : s.place = .rewatch) (hf : s.file = some f) (hi : s.inotify = some i) :
      StepCase parse topo s (.register true)
        { s with inotify := some { i with watches := f.inode :: i.watches }, place := .compare }
  | closed (hp : s.place = .rewatch) (hi : s.inotify.isSome = true) :
      StepCase parse topo s (.register false) { s with inotify := none, place := .compare }
  | skipped {ok : Bool} (hp : s.place = .rewatch) (hi : s.inotify = none) :
      StepCase parse topo s (.register ok) { s with place := .compare }
  | readInotify (hp : s.place = .top) : StepCase parse topo s .readInotify s.roundTop
  | compare (hp : s.place = .compare) :
      StepCase parse topo s .compare { s with place := if s.inotify.isNone && s.newer then .read .body else .body }
  | round (hp : s.place = .body) : StepCase parse topo s .round { s with place := .top }

theorem step_case {s s' : Watcher} {a : WatchAction} (h : s.step parse topo a = some s') :
    StepCase parse topo s a s' := by
  cases a with
  | writer w => exact .writer h
  | read dirs =>
      cases hp : s.place with
      | read next =>
          simp only [step, hp] at h
          obtain rfl := Option.some.inj h
          exact .read hp
      | _ => simp [step, hp] at h
  | metadata cache =>
      cases hp : s.place with
      | stat next l =>
          simp only [step, hp] at h
          obtain rfl := Option.some.inj h
          exact .metadata hp
      | _ => simp [step, hp] at h
  | merge cache =>
      cases hp : s.place with
      | init =>
          simp only [step, hp] at h
          obtain rfl := Option.some.inj h
          rw [← hp]
          exact .merge (Or.inl hp)
      | body =>
          simp only [step, hp] at h
          obtain rfl := Option.some.inj h
          rw [← hp]
          exact .merge (Or.inr hp)
      | _ => simp [step, hp] at h
  | register ok =>
      cases hp : s.place with
      | init =>
          simp only [step, hp, initInotify] at h
          cases ok with
          | true =>
              obtain ⟨f, hf, rfl⟩ := Option.map_eq_some_iff.mp h
              exact .watched hp hf
          | false =>
              obtain rfl := Option.some.inj h
              exact .unwatched hp
      | rewatch =>
          simp only [step, hp, rewatchInotify] at h
          cases hi : s.inotify with
          | none =>
              simp only [hi] at h
              obtain rfl := Option.some.inj h
              rw [← hi]
              exact .skipped hp hi
          | some i =>
              simp only [hi] at h
              cases ok with
              | true =>
                  obtain ⟨f, hf, rfl⟩ := Option.map_eq_some_iff.mp h
                  exact .rewatched hp hf hi
              | false =>
                  obtain rfl := Option.some.inj h
                  exact .closed hp (by rw [hi]; rfl)
      | _ => simp [step, hp] at h
  | readInotify =>
      cases hp : s.place with
      | top =>
          simp only [step, hp] at h
          obtain rfl := Option.some.inj h
          exact .readInotify hp
      | _ => simp [step, hp] at h
  | compare =>
      cases hp : s.place with
      | compare =>
          simp only [step, hp] at h
          obtain rfl := Option.some.inj h
          exact .compare hp
      | _ => simp [step, hp] at h
  | round =>
      cases hp : s.place with
      | body =>
          simp only [step, hp] at h
          obtain rfl := Option.some.inj h
          exact .round hp
      | _ => simp [step, hp] at h

/-! ### Contents and configurations -/

/-- `load` accepts the content of the file. -/
def Parses (parse : Str → Option JsonValue) (f : File) : Prop :=
  (((readToString (some f)).bind parse).bind loadRoot).isSome = true

/-- The configuration is the file's content with the cache merged into it. -/
inductive LoadedFrom (parse : Str → Option JsonValue) (topo : CpuTopology) (f : File) : AppConfig → Prop
  | load {dirs : ℕ → DirCall → Bool} {l : Loaded × Bool} (mtime : ℕ) (cache : Option Str)
      (h : loadParse parse dirs topo (readToString (some f)) = some l) :
      LoadedFrom parse topo f ((AppConfig.ofLoaded topo l mtime).mergeCache parse cache)
  | merge {cfg : AppConfig} (cache : Option Str) (h : LoadedFrom parse topo f cfg) :
      LoadedFrom parse topo f (cfg.mergeCache parse cache)

theorem loadParse_eq_none {dirs : ℕ → DirCall → Bool} {f : File}
    (h : loadParse parse dirs topo (readToString (some f)) = none) : ¬ Parses parse f := by
  intro hp
  obtain ⟨x, hx⟩ := Option.isSome_iff_exists.mp hp
  obtain ⟨root, hroot, hl⟩ := Option.bind_eq_some_iff.mp hx
  obtain ⟨text, htext, hparse⟩ := Option.bind_eq_some_iff.mp hroot
  rw [htext] at h
  simp [loadParse, hparse, hl] at h

theorem exists_of_loadParse {dirs : ℕ → DirCall → Bool} {file : Option File} {l : Loaded × Bool}
    (h : loadParse parse dirs topo (readToString file) = some l) : ∃ f, file = some f := by
  cases file with
  | none => simp [readToString, loadParse] at h
  | some f => exact ⟨f, rfl⟩

/-- Only the content matters. -/
theorem LoadedFrom.of_bytes {f g : File} {cfg : AppConfig} (h : LoadedFrom parse topo f cfg) (hb : f.bytes = g.bytes) :
    LoadedFrom parse topo g cfg := by
  have hread : readToString (some f) = readToString (some g) := by
    unfold readToString
    rw [Option.bind_some, Option.bind_some, hb]
  induction h with
  | load mtime cache h => exact .load mtime cache (hread ▸ h)
  | merge cache _ ih => exact .merge cache ih

/-- The rules of such a configuration are those of the content's entries and of merged ones. -/
theorem LoadedFrom.configured {f : File} {cfg : AppConfig} (h : LoadedFrom parse topo f cfg) :
    ∃ text root entries ebpf merged, readToString (some f) = some text ∧ parse text = some root ∧
      loadRoot root = some (entries, ebpf) ∧ Configured parse (entries ++ merged) cfg := by
  have hmerge : ∀ {entries : List JsonValue} {cfg : AppConfig} (data : Option Str), Configured parse entries cfg →
      ∃ merged, Configured parse (entries ++ merged) (cfg.mergeCache parse data) := by
    intro entries cfg data hc
    by_cases hd : ∃ root, data.bind parse = some root ∧ root.isArray = true
    · obtain ⟨root, hroot, ha⟩ := hd
      exact ⟨_, hc.merge hroot ha⟩
    · refine ⟨[], ?_⟩
      rw [List.append_nil]
      refine hc.skip fun root hroot => ?_
      rw [Bool.eq_false_iff]
      exact fun ha => hd ⟨root, hroot, ha⟩
  induction h with
  | @load dirs l mtime cache h =>
      cases htext : readToString (some f) with
      | none => simp [htext, loadParse] at h
      | some text =>
          rw [htext] at h
          have hl := h
          simp only [loadParse, Option.bind_eq_bind, Option.bind_some, Option.bind_eq_some_iff] at h
          obtain ⟨root, hroot, ⟨entries, ebpf⟩, hentries, -⟩ := h
          have hc : Configured parse entries (AppConfig.ofLoaded topo l mtime) := by
            refine @Configured.load parse dirs topo text root (some mtime) entries ebpf _ hroot hentries ?_
            simp [AppConfig.load, hl]
          obtain ⟨merged, hm⟩ := hmerge cache hc
          exact ⟨text, root, entries, ebpf, merged, rfl, hroot, hentries, hm⟩
  | merge cache _ ih =>
      obtain ⟨text, root, entries, ebpf, merged, htext, hroot, hentries, hc⟩ := ih
      obtain ⟨merged', hm⟩ := hmerge cache hc
      refine ⟨text, root, entries, ebpf, merged ++ merged', htext, hroot, hentries, ?_⟩
      rw [← List.append_assoc]
      exact hm

end Watcher

end AetherOptExt
