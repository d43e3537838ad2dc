import AetherOptExt.ConfigInForce
import AetherOptExt.PreFilter

/-! # The whitelist in force

`TARGET_COMM_MAP` is written by `comm_map_init` only, in the rounds of eBPF mode that rebuild the
cache.  Between two of them the kernel filters with the keys of the packages that were configured
then.  `Filtered` runs the main loop with that map beside it.

In the runs that lose no news of a change the map holds, wherever events are taken, exactly the
keys of the configuration in force (`Filtered.forwards_in_force`).  So a new thread under a name that
user space resolves is reported, and so is one that executes under it or takes it itself, unless the
keys do not fit or the name has white space at its ends. -/

namespace AetherOptExt

/-- The capacity of `TARGET_COMM_MAP`: `MAP_CAPACITY`, and `comm_capacity` in the main loop. -/
def mapCapacity : ℕ := 16 <<< 9

/-- The loop with the whitelist of the kernel. -/
structure Filtered where
  loop : MainLoop
  target : TargetMap

/-! ### What a part of a round leaves fresh -/

namespace MainLoop

variable {d : Device} {s : MainLoop} {a : LoopInput}

/-- A rebuild of eBPF mode, which `comm_map_init` precedes. -/
def Rebuilds (s : MainLoop) : LoopInput → Bool
  | .fullScan _ => s.configChanged || s.needFullScan
  | _ => false

/-- Where eBPF works and nothing is stale after a part of a round, so it was before, under the same
configuration. -/
def KeepsFresh (s t : MainLoop) : Prop :=
  t.bpfOk = true → t.stale = false → s.bpfOk = true ∧ t.cfg = s.cfg ∧ s.stale = false

theorem KeepsFresh.of_eq {t : MainLoop} (hb : t.bpfOk = s.bpfOk) (hc : t.cfg = s.cfg) (hf : t.stale = s.stale) :
    s.KeepsFresh t :=
  fun hb' hf' => ⟨hb ▸ hb', hc, hf ▸ hf'⟩

theorem keepsFresh_reload (r : Reload) : s.KeepsFresh (s.reload d r) := by
  unfold reload
  cases hotReload d r s.cfg with
  | none => exact .of_eq rfl rfl rfl
  | some cfg => exact fun _ hf => absurd hf Bool.noConfusion

theorem keepsFresh_readInotify (ev : Option ℕ) (r : Reload) (rewatched : Bool) :
    s.KeepsFresh (s.readInotify d ev r rewatched) := by
  unfold readInotify
  dsimp only
  split
  · exact keepsFresh_reload (s := { s with configChanged := false, place := .compare }) r
  · exact keepsFresh_reload (s := { s with configChanged := false, place := .compare }) r
  · exact .of_eq rfl rfl rfl

theorem keepsFresh_allocate (x : Allocation) : s.KeepsFresh (s.effect d (.allocate x)) := by
  unfold effect
  dsimp only
  split_ifs
  · cases autoAllocate d x s.cfg with
    | none => exact .of_eq rfl rfl rfl
    | some cfg => exact fun _ hf => absurd hf Bool.noConfusion
  · exact .of_eq rfl rfl rfl

/-- Only a rebuild makes a stale configuration fresh while eBPF works. -/
theorem keepsFresh_effect (he : s.enabled a = true) (hr : s.Rebuilds a = false) : s.KeepsFresh (s.effect d a) := by
  cases a with
  | readInotify ev r rewatched => exact keepsFresh_readInotify ev r rewatched
  | metadata mtime r =>
      unfold effect
      dsimp only
      split_ifs
      · exact keepsFresh_reload r
      · exact .of_eq rfl rfl rfl
  | fullScan dir =>
      have hr : ¬ (s.configChanged || s.needFullScan) = true := Bool.eq_false_iff.mp hr
      unfold effect
      dsimp only
      rw [if_neg hr]
      exact .of_eq rfl rfl rfl
  | procSync snap =>
      obtain ⟨-, hoff⟩ := Bool.and_eq_true_iff.mp he
      rw [Bool.not_eq_true'] at hoff
      exact fun hb _ => absurd (hoff.symm.trans hb) Bool.false_ne_true
  | dispatch env event => exact .of_eq rfl rfl rfl
  | idle => exact .of_eq rfl rfl rfl
  | disconnected => exact fun hb _ => absurd hb Bool.noConfusion
  | correct elapsed env =>
      cases elapsed with
      | true => exact .of_eq rfl rfl rfl
      | false => exact .of_eq rfl rfl rfl
  | affinity elapsed env =>
      unfold effect
      dsimp only
      split_ifs
      · exact .of_eq rfl rfl rfl
      · exact .of_eq rfl rfl rfl
  | allocate x => exact keepsFresh_allocate x

/-- A rebuild keeps the configuration. -/
theorem cfg_of_rebuilds (hr : s.Rebuilds a = true) : (s.effect d a).cfg = s.cfg := by
  cases a with
  | fullScan dir =>
      unfold effect
      dsimp only
      split_ifs
      · rfl
      · rfl
  | _ => exact absurd hr Bool.noConfusion

/-- Events are taken in eBPF mode only. -/
def Online (s : MainLoop) : Prop := s.place = .receive ∨ s.place = .drain → s.bpfOk = true

theorem online_of_place {p : LoopPlace} (hp : s.place = p) (h : p ≠ .receive ∧ p ≠ .drain) : s.Online := by
  intro h'
  rcases h' with h' | h'
  · exact absurd (hp.symm.trans h') h.1
  · exact absurd (hp.symm.trans h') h.2

theorem readInotify_place (ev : Option ℕ) (r : Reload) (rewatched : Bool) :
    (s.readInotify d ev r rewatched).place = .compare := by
  obtain ⟨hp, -⟩ := reload_spec (d := d) r { s with configChanged := false, place := .compare }
  unfold readInotify
  dsimp only
  split
  · exact hp
  · exact hp
  · rfl

theorem Online.effect (h : s.Online) (he : s.enabled a = true) : (s.effect d a).Online := by
  cases a with
  | readInotify ev r rewatched => exact online_of_place (readInotify_place ev r rewatched) (by decide)
  | metadata mtime r => exact online_of_place (p := .sync) rfl (by decide)
  | fullScan dir =>
      intro _
      obtain ⟨-, hb⟩ := Bool.and_eq_true_iff.mp he
      unfold MainLoop.effect
      dsimp only
      split_ifs
      · exact hb
      · exact hb
  | procSync snap => exact online_of_place (p := .affinity) rfl (by decide)
  | dispatch env event =>
      intro _
      unfold MainLoop.enabled at he
      rw [Bool.or_eq_true, beq_iff_eq, beq_iff_eq] at he
      exact h he
  | idle => exact online_of_place (p := .correct) rfl (by decide)
  | disconnected => exact online_of_place (p := .correct) rfl (by decide)
  | correct elapsed env =>
      have hp : (s.effect d (.correct elapsed env)).place = .poll := by
        cases elapsed <;> rfl
      exact online_of_place hp (by decide)
  | affinity elapsed env =>
      have hp : (s.effect d (.affinity elapsed env)).place = .allocate := by
        unfold MainLoop.effect
        dsimp only
        split_ifs <;> rfl
      exact online_of_place hp (by decide)
  | allocate x =>
      have hp : (s.effect d (.allocate x)).place = .poll := by
        unfold MainLoop.effect
        dsimp only
        split_ifs
        · cases autoAllocate d x s.cfg <;> rfl
        · rfl
      exact online_of_place hp (by decide)

end MainLoop

/-! ### The loop and the map -/

namespace Filtered

variable (d : Device)

/-- `comm_map_init` before the `full_scan` of a rebuild. -/
def whitelist (s : Filtered) (a : LoopInput) : TargetMap :=
  if s.loop.Rebuilds a then (commMapInit s.target s.loop.cfg.pkgSet mapCapacity).1 else s.target

def step (s : Filtered) (a : LoopInput) : Option Filtered :=
  (s.loop.step d a).map fun loop => ⟨loop, s.whitelist a⟩

/-- The loop is entered, with any whitelist. -/
def Init (s : Filtered) : Prop := s.loop.Init

/-- No news of a change is lost. -/
def Announces (s : Filtered) (a : LoopInput) : Prop := s.loop.Announces d a

/-- The keys of the configured packages fit in the map. -/
def Fits (s : Filtered) : Prop := (commKeysBuild s.loop.cfg.pkgSet).length ≤ mapCapacity

/-- While eBPF works and nothing is stale, the map holds the keys of the configured packages. -/
structure InForce (s : Filtered) : Prop where
  announced : s.loop.Announced
  online : s.loop.Online
  whitelist : s.loop.bpfOk = true → s.loop.stale = false → s.Fits → Whitelists s.target s.loop.cfg.pkgSet

variable {d} {s s' : Filtered} {a : LoopInput}

theorem step_eq_some : s.step d a = some s' ↔ s.loop.enabled a = true ∧ s' = ⟨s.loop.effect d a, s.whitelist a⟩ := by
  unfold step
  rw [Option.map_eq_some_iff]
  constructor
  · rintro ⟨loop, hl, rfl⟩
    obtain ⟨he, rfl⟩ := MainLoop.step_eq_some.mp hl
    exact ⟨he, rfl⟩
  · rintro ⟨he, rfl⟩
    exact ⟨_, MainLoop.step_eq_some.mpr ⟨he, rfl⟩, rfl⟩

theorem inForce_init (h : s.Init) : s.InForce where
  announced := MainLoop.announced_init h
  online := MainLoop.online_of_place h.place (by decide)
  whitelist _ hf := absurd (h.stale.symm.trans hf) Bool.noConfusion

theorem InForce.step (h : s.InForce) (hok : s.Announces d a) (hs : s.step d a = some s') : s'.InForce := by
  obtain ⟨he, rfl⟩ := step_eq_some.mp hs
  refine ⟨h.announced.effect he hok, h.online.effect he, fun hb hf hfit => ?_⟩
  unfold Fits at hfit
  unfold Filtered.whitelist
  dsimp only at hb hf hfit ⊢
  by_cases hr : s.loop.Rebuilds a = true
  · -- The map has just been written from the configuration that the rebuild keeps.
    rw [MainLoop.cfg_of_rebuilds hr] at hfit ⊢
    rw [if_pos hr]
    exact fun k => mem_commMapInit hfit
  · obtain ⟨hb, hcfg, hf⟩ := MainLoop.keepsFresh_effect he (Bool.eq_false_iff.mpr hr) hb hf
    rw [hcfg] at hfit ⊢
    rw [if_neg hr]
    exact h.whitelist hb hf hfit

/-- The hooks report a thread that takes a name, whatever else the tables hold. -/
def Reported (target : TargetMap) (comm : Comm) : Prop :=
  ∀ (applied : AppliedMap) (o : TracepointOffsets) (tgid tid child : Tid) (oldComm : Comm), o.forkChildPid ≠ 0#32 →
    let m : Maps := ⟨target, applied, some o⟩
    (schedProcessFork m (forkContext o tgid tid child comm)).2 = some ⟨tgid, child, comm, eventFork⟩ ∧
    (schedProcessExec m (threadContext tgid tid comm)).2 = some ⟨tgid, tid, comm, eventExec⟩ ∧
    (tid ≠ 0#32 →
      (taskRename m (renameContext o tgid tid tid oldComm comm)).2 = some ⟨tgid, tid, comm, eventRename⟩)

theorem reported_of_matched {target : TargetMap} {comm : Comm} (h : whitelistMatched target comm = true) :
    Reported target comm := by
  intro applied o tgid tid child oldComm hpos
  have ho : offsetsLoad ⟨target, applied, some o⟩ = some o := offsetsLoad_of_some rfl hpos
  refine ⟨?_, ?_, fun h0 => ?_⟩
  · rw [schedProcessFork_eq ho]
    exact if_pos (.inr h)
  · rw [schedProcessExec_eq]
    exact if_pos h
  · rw [taskRename_eq ho]
    exact if_pos ⟨h0, .inr h⟩

/-- **The kernel filters with the configuration in force.**  In every run that loses no news, wherever
events are taken and the keys fit, the whitelist holds exactly the keys of the configured packages,
and every thread is reported whose name, without white space at its ends and not empty, user space
resolves. -/
theorem forwards_in_force (d : Device) (s : Filtered) (h : Runs.Reachable (step d) (Announces d) Init s)
    (hp : s.loop.place = .receive ∨ s.loop.place = .drain) (hfit : s.Fits) :
    Whitelists s.target s.loop.cfg.pkgSet ∧
      ∀ (comm : Comm) (text : Str), comm.Holds text → Str.Trimmed text → text ≠ [] →
        (commToPkg (commStr comm) s.loop.cfg).isSome = true → Reported s.target comm := by
  have hinv : s.InForce := h.invariant (fun _ => inForce_init) fun s a s' hs hok hstep => hs.step hok hstep
  have hfresh : s.loop.stale = false := (MainLoop.announced_seen (hp.imp_right .inl)).mp hinv.announced
  have hw := hinv.whitelist (hinv.online hp) hfresh hfit
  refine ⟨hw, fun comm text hh ht hne hsome => reported_of_matched ?_⟩
  rw [commStr_of_holds hh ht] at hsome
  obtain ⟨pkg, hmem, hm⟩ := commToPkg_isSome.mp hsome
  have hpkg : pkg ≠ [] := by
    rintro rfl
    rcases hm with rfl | ⟨-, hpre | hsuf⟩
    · exact hne rfl
    · exact hne (List.prefix_nil.mp hpre)
    · exact hne (List.suffix_nil.mp hsuf)
  exact whitelistMatched_of_matches hw hh hmem hpkg hm

/-- A first round that loads the user's file and rebuilds. -/
def loadedRound : List LoopInput :=
  [.readInotify (some 1) MainLoop.userReload false, .metadata none MainLoop.unreadable,
    .fullScan ProcState.oneProcess.dir]

/-- The file names `com.a`; the whitelist was empty. -/
theorem forwards_in_force_loaded :
    ∃ s, Runs.run (step MainLoop.phone) ⟨MainLoop.entered true, ∅⟩ loadedRound = some s ∧
      Whitelists s.target s.loop.cfg.pkgSet ∧ Reported s.target (Comm.ofText "com.a".toList) := by
  obtain ⟨s, hs, hp⟩ := Runs.exists_run (step MainLoop.phone) ⟨MainLoop.entered true, ∅⟩ loadedRound
    (fun s => s.loop.place == .receive && (decide ((commKeysBuild s.loop.cfg.pkgSet).length ≤ mapCapacity) &&
      (commToPkg (commStr (Comm.ofText "com.a".toList)) s.loop.cfg).isSome)) (by decide +kernel)
  simp only [Bool.and_eq_true, beq_iff_eq, decide_eq_true_eq] at hp
  have hok : ∀ a ∈ loadedRound, ∀ s : Filtered, s.Announces MainLoop.phone a := by
    intro a ha s
    simp only [loadedRound, List.mem_cons, List.not_mem_nil, or_false] at ha
    rcases ha with rfl | rfl | rfl
    · trivial
    · intro _ hn
      simp [MainLoop.newer] at hn
    · trivial
  have hinit : Init ⟨MainLoop.entered true, ∅⟩ := MainLoop.init_entered true
  have htrim : Str.Trimmed "com.a".toList :=
    Str.trim_of_forall fun c hc => Bool.eq_false_iff.mpr (List.any_eq_false.mp (by decide) c hc)
  obtain ⟨hw, hrep⟩ := forwards_in_force MainLoop.phone s ⟨_, hinit, Runs.steps_of_run hok hs⟩ (.inl hp.1) hp.2.1
  exact ⟨s, hs, hw, hrep _ "com.a".toList ⟨by decide, by decide⟩ htrim (by decide) hp.2.2⟩

end Filtered

end AetherOptExt
