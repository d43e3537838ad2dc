import AetherOptExt.AllocationRoundTrip
import AetherOptExt.CachePrecedence
import AetherOptExt.MainLoop

/-! # The configuration in force

A change of the configuration must reach a rebuild that looks at every process before the next
event and the next correction.  Two flags carry the news: `config_changed` within a round, and
`need_full_scan` or `scan_all_proc` across rounds.  `Announced` says where which of them is up.

The news is lost in two ways: a second reload of the same round fails and clears the flag of the
first, and an allocation merges without raising `scan_all_proc`.  In the other runs
(`Announces`) the configuration is never used before the rebuild (`uses_current_config`), while
any step that is excluded can be followed by such a use (`lost_news_used`). -/

namespace AetherOptExt

namespace MainLoop

variable (d : Device)

/-! ### The news of a change -/

/-- The flag that the next round will see. -/
def flag (s : MainLoop) : Bool := if s.bpfOk then s.needFullScan else s.proc.scanAllProc

/-- The part dispatches an event or runs `affinity_sync`. -/
def UsesConfig (s : MainLoop) : LoopInput → Prop
  | .dispatch .. => True
  | .correct elapsed _ => elapsed = true
  | .affinity elapsed _ => (s.proc.forceAffinity || elapsed) = true
  | _ => False

/-- The news of a change is not lost: a reload does not fail after another one of the round has
succeeded, and no allocation is merged, unless a full rebuild is due anyway. -/
def Announces (s : MainLoop) : LoopInput → Prop
  | .metadata mtime r =>
      s.configChanged = true → s.newer mtime = true → hotReload d r s.cfg = none → s.flag = true
  | .allocate a => s.allocates = true → (autoAllocate d a s.cfg).isSome = true → s.proc.scanAllProc = true
  | _ => True

/-- A change that no rebuild has seen is announced to the next rebuild, and there is none where
the configuration is used. -/
def Announced (s : MainLoop) : Prop :=
  match s.place with
  | .poll => s.stale = true → s.flag = true
  | .compare => s.stale = true → s.configChanged = true ∨ s.flag = true
  | .sync => s.stale = true → s.configChanged = true ∨ s.flag = true
  | .affinity => s.stale = false ∧ s.bpfOk = false
  | .allocate => s.stale = false ∧ s.bpfOk = false
  | _ => s.stale = false

variable {d} {s s' : MainLoop} {a : LoopInput}

/-- A reload sets `config_changed` when the configuration changes, and does nothing else. -/
theorem reload_spec (r : Reload) (s : MainLoop) :
    (s.reload d r).place = s.place ∧ (s.reload d r).flag = s.flag ∧
      ((hotReload d r s.cfg = none ∧ (s.reload d r).stale = s.stale ∧ (s.reload d r).configChanged = false) ∨
        ((s.reload d r).stale = true ∧ (s.reload d r).configChanged = true)) := by
  unfold reload flag
  cases hotReload d r s.cfg with
  | none => exact ⟨rfl, rfl, .inl ⟨rfl, rfl, rfl⟩⟩
  | some cfg => exact ⟨rfl, rfl, .inr ⟨rfl, rfl⟩⟩

theorem announced_init (h : Init s) : s.Announced := by
  unfold Announced flag
  rw [h.place, h.needFullScan, h.proc]
  intro _
  split_ifs <;> rfl

/-- Before the rebuild of a round the news is in one of the flags. -/
theorem announced_pending (hp : s.place = .compare ∨ s.place = .sync) :
    s.Announced ↔ (s.stale = true → s.configChanged = true ∨ s.flag = true) := by
  unfold Announced
  rcases hp with hp | hp
  · rw [hp]
  · rw [hp]

/-- Before the round's events the news has been seen. -/
theorem announced_seen (hp : s.place = .receive ∨ s.place = .drain ∨ s.place = .correct) :
    s.Announced ↔ s.stale = false := by
  unfold Announced
  rcases hp with hp | hp | hp
  · rw [hp]
  · rw [hp]
  · rw [hp]

theorem place_of_receiving (he : (s.place == .receive || s.place == .drain) = true) :
    s.place = .receive ∨ s.place = .drain ∨ s.place = .correct := by
  rw [Bool.or_eq_true, beq_iff_eq, beq_iff_eq] at he
  exact he.imp_right .inl

theorem announced_poll (hp : s.place = .poll) : s.Announced ↔ (s.stale = true → s.flag = true) := by
  unfold Announced
  rw [hp]

theorem announced_proc (hp : s.place = .affinity ∨ s.place = .allocate) :
    s.Announced ↔ s.stale = false ∧ s.bpfOk = false := by
  unfold Announced
  rcases hp with hp | hp
  · rw [hp]
  · rw [hp]

theorem Announced.readInotify (h : s.Announced) (hp : s.place = .poll) (ev : Option ℕ) (r : Reload) (rewatched : Bool) :
    (s.readInotify d ev r rewatched).Announced := by
  rw [announced_poll hp] at h
  have hreload : ∀ t : MainLoop, t.place = .compare → t.stale = s.stale → t.flag = s.flag →
      (t.reload d r).Announced := by
    intro t hp ht hf
    obtain ⟨hplace, hflag, hcase⟩ := reload_spec (d := d) r t
    rw [announced_pending (.inl (hplace.trans hp)), hflag, hf]
    intro hstale
    rcases hcase with ⟨-, hsame, -⟩ | ⟨-, hchanged⟩
    · exact .inr (h (ht.symm.trans (hsame.symm.trans hstale)))
    · exact .inl hchanged
  unfold MainLoop.readInotify
  dsimp only
  split
  · exact hreload _ rfl rfl rfl
  · exact hreload _ rfl rfl rfl
  · rw [announced_pending (.inl rfl)]
    exact fun hstale => .inr (h hstale)

theorem Announced.metadata (h : s.Announced) (hp : s.place = .compare) {mtime : Option ℕ} {r : Reload}
    (hok : s.Announces d (.metadata mtime r)) : (s.effect d (.metadata mtime r)).Announced := by
  rw [announced_pending (.inl hp)] at h
  unfold MainLoop.effect
  rw [announced_pending (.inr rfl)]
  dsimp only
  split_ifs with hn
  · obtain ⟨-, hflag, hcase⟩ := reload_spec (d := d) r s
    intro hstale
    rcases hcase with ⟨hfail, hsame, -⟩ | ⟨-, hchanged⟩
    · -- the reload fails: what the first one of the round has announced must be announced otherwise
      refine .inr (hflag.trans ?_)
      rcases h (hsame.symm.trans hstale) with hchanged | hf
      · exact hok hchanged hn hfail
      · exact hf
    · exact .inl hchanged
  · exact h

theorem Announced.procSync (h : s.Announced) (hp : s.place = .sync) (hb : s.bpfOk = false) (snap : ProcSnapshot) :
    (s.procSync snap).Announced := by
  rw [announced_pending (.inr hp)] at h
  have hflag : s.flag = s.proc.scanAllProc := by
    unfold flag
    rw [hb]
    rfl
  unfold MainLoop.procSync
  rw [announced_proc (.inl rfl)]
  refine ⟨?_, hb⟩
  dsimp only
  split_ifs with hc hs hs
  · rfl
  · exact absurd rfl hs
  · rfl
  · rw [Bool.eq_false_iff]
    intro hstale
    rcases h hstale with hc' | hf
    · exact hc hc'
    · exact hs (hflag.symm.trans hf)

theorem Announced.effect (h : s.Announced) (he : s.enabled a = true) (hok : s.Announces d a) :
    (s.effect d a).Announced := by
  cases a with
  | readInotify ev r rewatched => exact h.readInotify (beq_iff_eq.mp he) ev r rewatched
  | metadata mtime r => exact h.metadata (beq_iff_eq.mp he) hok
  | fullScan dir =>
      obtain ⟨hp, hb⟩ := Bool.and_eq_true_iff.mp he
      rw [announced_pending (.inr (beq_iff_eq.mp hp))] at h
      unfold MainLoop.effect
      dsimp only
      split_ifs with hdue
      · exact (announced_seen (.inl rfl)).mpr rfl
      · rw [announced_seen (.inl rfl)]
        rw [Bool.or_eq_true, not_or] at hdue
        rw [Bool.eq_false_iff]
        intro hstale
        rcases h hstale with hc | hf
        · exact hdue.1 hc
        · unfold flag at hf
          rw [hb] at hf
          exact hdue.2 hf
  | procSync snap =>
      obtain ⟨hp, hb⟩ := Bool.and_eq_true_iff.mp he
      exact h.procSync (beq_iff_eq.mp hp) (Bool.not_eq_true' _ ▸ hb) snap
  | dispatch env event =>
      rw [announced_seen (place_of_receiving he)] at h
      exact (announced_seen (.inr (.inl rfl))).mpr h
  | idle =>
      rw [announced_seen (place_of_receiving he)] at h
      exact (announced_seen (.inr (.inr rfl))).mpr h
  | disconnected =>
      rw [announced_seen (.inl (beq_iff_eq.mp he))] at h
      exact (announced_seen (.inr (.inr rfl))).mpr h
  | correct elapsed env =>
      rw [announced_seen (.inr (.inr (beq_iff_eq.mp he)))] at h
      have hfresh : ∀ t : MainLoop, t.place = .poll → t.stale = s.stale → t.Announced := by
        intro t hp ht
        rw [announced_poll hp, ht, h]
        exact fun hf => absurd hf Bool.false_ne_true
      unfold MainLoop.effect
      cases elapsed with
      | true => exact hfresh _ rfl rfl
      | false => exact hfresh _ rfl rfl
  | affinity elapsed env =>
      rw [announced_proc (.inl (beq_iff_eq.mp he))] at h
      unfold MainLoop.effect
      dsimp only
      split_ifs
      · exact (announced_proc (.inr rfl)).mpr h
      · exact (announced_proc (.inr rfl)).mpr h
  | allocate x =>
      obtain ⟨hfresh, hb⟩ := (announced_proc (.inr (beq_iff_eq.mp he))).mp h
      have hidle : ∀ t : MainLoop, t.place = .poll → t.stale = s.stale → t.Announced := by
        intro t hp ht
        rw [announced_poll hp, ht, hfresh]
        exact fun hf => absurd hf Bool.false_ne_true
      unfold MainLoop.effect
      dsimp only
      split_ifs with hr
      · cases hx : autoAllocate d x s.cfg with
        | none => exact hidle _ rfl rfl
        | some cfg =>
            have hscan := hok hr (Option.isSome_iff_exists.mpr ⟨cfg, hx⟩)
            rw [announced_poll rfl]
            intro _
            unfold flag
            dsimp only
            rw [hb]
            exact hscan
      · exact hidle _ rfl rfl

/-- **The configuration in force is the one that every process was looked at under**, in every
run that loses no news. -/
theorem uses_current_config (d : Device) (s s' : MainLoop) (a : LoopInput)
    (h : Runs.Reachable (step d) (Announces d) Init s) (hs : s.step d a = some s') (hu : s.UsesConfig a) :
    s.stale = false := by
  have hann : s.Announced := h.invariant (fun _ => announced_init) fun s a s' hs hok hstep => by
    obtain ⟨he, rfl⟩ := step_eq_some.mp hstep
    exact hs.effect he hok
  obtain ⟨he, -⟩ := step_eq_some.mp hs
  cases a with
  | dispatch env event => exact (announced_seen (place_of_receiving he)).mp hann
  | correct elapsed env => exact (announced_seen (.inr (.inr (beq_iff_eq.mp he)))).mp hann
  | affinity elapsed env => exact ((announced_proc (.inl (beq_iff_eq.mp he))).mp hann).1
  | _ => exact hu.elim

/-! ### The two ways to lose the news -/

/-- What holds in every run: `config_changed` is set after a change only, and proc mode is
without eBPF. -/
structure Ordered (s : MainLoop) : Prop where
  changed : s.place = .compare → s.configChanged = true → s.stale = true
  proc : s.place = .affinity ∨ s.place = .allocate → s.bpfOk = false

theorem ordered_init (h : Init s) : s.Ordered where
  changed hp := by
    rw [h.place] at hp
    cases hp
  proc hp := by
    rw [h.place] at hp
    rcases hp with hp | hp
    · cases hp
    · cases hp

theorem ordered_of_place {p : LoopPlace} (hp : s.place = p) (h : p ≠ .compare ∧ p ≠ .affinity ∧ p ≠ .allocate) :
    s.Ordered where
  changed h' := absurd (hp.symm.trans h') h.1
  proc h' := h'.elim (fun h' => absurd (hp.symm.trans h') h.2.1) fun h' => absurd (hp.symm.trans h') h.2.2

theorem ordered_of_proc (hp : s.place = .affinity ∨ s.place = .allocate) (hb : s.bpfOk = false) : s.Ordered where
  changed h' := by
    rw [h'] at hp
    rcases hp with hp | hp
    · cases hp
    · cases hp
  proc _ := hb

theorem Ordered.readInotify (ev : Option ℕ) (r : Reload) (rewatched : Bool) (s : MainLoop) :
    (s.readInotify d ev r rewatched).Ordered := by
  have hcompare : ∀ t : MainLoop, t.place = .compare → (t.configChanged = true → t.stale = true) → t.Ordered :=
    fun t hp hc => ⟨fun _ => hc, fun hp' => by rw [hp] at hp'; simp at hp'⟩
  obtain ⟨hplace, -, hcase⟩ := reload_spec (d := d) r { s with configChanged := false, place := .compare }
  have hchanged : (({ s with configChanged := false, place := .compare } : MainLoop).reload d r).configChanged = true →
      (({ s with configChanged := false, place := .compare } : MainLoop).reload d r).stale = true := by
    intro hc
    rcases hcase with ⟨-, -, hf⟩ | ⟨hstale, -⟩
    · exact absurd (hf.symm.trans hc) Bool.false_ne_true
    · exact hstale
  unfold MainLoop.readInotify
  dsimp only
  split
  · exact hcompare _ hplace hchanged
  · exact hcompare _ hplace hchanged
  · exact hcompare _ rfl fun hc => absurd hc Bool.false_ne_true

theorem Ordered.effect (h : s.Ordered) (he : s.enabled a = true) : (s.effect d a).Ordered := by
  cases a with
  | readInotify ev r rewatched => exact .readInotify ev r rewatched s
  | metadata mtime r => exact ordered_of_place (p := .sync) rfl (by decide)
  | fullScan dir =>
      have hp : (s.effect d (.fullScan dir)).place = .receive := by
        unfold MainLoop.effect
        dsimp only
        split_ifs <;> rfl
      exact ordered_of_place hp (by decide)
  | procSync snap =>
      obtain ⟨-, hb⟩ := Bool.and_eq_true_iff.mp he
      exact ordered_of_proc (.inl rfl) (Bool.not_eq_true' _ ▸ hb)
  | dispatch env event => exact ordered_of_place (p := .drain) rfl (by decide)
  | idle => exact ordered_of_place (p := .correct) rfl (by decide)
  | disconnected => exact ordered_of_place (p := .correct) rfl (by decide)
  | correct elapsed env =>
      have hp : (s.effect d (.correct elapsed env)).place = .poll := by
        cases elapsed <;> rfl
      exact ordered_of_place hp (by decide)
  | affinity elapsed env =>
      have hb := h.proc (.inl (beq_iff_eq.mp he))
      unfold MainLoop.effect
      dsimp only
      split_ifs
      · exact ordered_of_proc (.inr rfl) hb
      · exact ordered_of_proc (.inr rfl) hb
  | allocate x =>
      have hp : (s.effect d (.allocate x)).place = .poll := by
        unfold MainLoop.effect
        dsimp only
        split_ifs
        · cases autoAllocate d x s.cfg <;> rfl
        · rfl
      exact ordered_of_place hp (by decide)

theorem run_cons {as : List LoopInput} (he : s.enabled a = true) :
    Runs.run (step d) s (a :: as) = Runs.run (step d) (s.effect d a) as := by
  rw [Runs.run, step_eq_some.mpr ⟨he, rfl⟩]
  rfl

/-- A stale configuration is used. -/
def StaleUse (d : Device) (s : MainLoop) : Prop :=
  ∃ as t b, Runs.run (step d) s as = some t ∧ (t.step d b).isSome = true ∧ t.UsesConfig b ∧ t.stale = true

theorem StaleUse.cons (h : (s.effect d a).StaleUse d) (he : s.enabled a = true) : s.StaleUse d := by
  obtain ⟨as, t, b, hrun, hrest⟩ := h
  exact ⟨a :: as, t, b, (run_cons he).trans hrun, hrest⟩

/-- A round without news goes on to a correction. -/
theorem staleUse_sync (hp : s.place = .sync) (hc : s.configChanged = false) (hf : s.flag = false)
    (hs : s.stale = true) : s.StaleUse d := by
  unfold flag at hf
  by_cases hb : s.bpfOk = true
  · rw [if_pos hb] at hf
    have he : s.enabled (.fullScan none) = true := by
      unfold enabled
      rw [hp, hb]
      rfl
    have hskip : s.effect d (.fullScan none) = { s with place := .receive } := by
      unfold MainLoop.effect
      dsimp only
      rw [hc, hf]
      rfl
    refine StaleUse.cons (a := .fullScan none) ?_ he
    rw [hskip]
    exact StaleUse.cons (a := .idle) ⟨[], _, .correct true fun _ => allAlive, rfl, rfl, rfl, hs⟩ rfl
  · rw [if_neg hb] at hf
    have he : s.enabled (.procSync ⟨none, fun _ => true, none⟩) = true := by
      unfold enabled
      rw [hp, Bool.eq_false_iff.mpr hb]
      rfl
    refine StaleUse.cons (a := .procSync ⟨none, fun _ => true, none⟩) ?_ he
    refine ⟨[], _, .affinity true fun _ => allAlive, rfl, rfl, Bool.or_true _, ?_⟩
    show (if (if s.configChanged then { s.proc with scanAllProc := true } else s.proc).scanAllProc then false
      else s.stale) = true
    rw [hc, if_neg Bool.false_ne_true, hf, if_neg Bool.false_ne_true]
    exact hs

/-- A reload of a file that cannot be read. -/
def unreadable : Reload := ⟨fun _ _ => false, none, none, none⟩

/-- So does a round that starts without news of its own. -/
theorem staleUse_poll (hp : s.place = .poll) (hf : s.flag = false) (hs : s.stale = true) : s.StaleUse d := by
  have he : s.enabled (.readInotify none unreadable false) = true := by
    unfold enabled
    rw [hp]
    rfl
  have hquiet : s.effect d (.readInotify none unreadable false) =
      { s with configChanged := false, place := .compare } := by
    unfold MainLoop.effect MainLoop.readInotify
    dsimp only
    rw [ite_self]
  refine StaleUse.cons (a := .readInotify none unreadable false) ?_ he
  rw [hquiet]
  have hsame : ({ s with configChanged := false, place := .compare } : MainLoop).effect d (.metadata none unreadable) =
      { s with configChanged := false, place := .sync } := by
    unfold MainLoop.effect
    dsimp only
    rw [if_neg (by simp [newer])]
  refine StaleUse.cons (a := .metadata none unreadable) ?_ rfl
  rw [hsame]
  exact staleUse_sync rfl rfl hf hs

/-- Every step that loses the news can be followed by a use of the stale configuration. -/
theorem lost_news_used (d : Device) (s s' : MainLoop) (a : LoopInput)
    (h : Runs.Reachable (step d) (fun _ _ => True) Init s) (hs : s.step d a = some s') (hn : ¬ s.Announces d a) :
    s'.StaleUse d := by
  have hord : s.Ordered := h.invariant (fun _ => ordered_init) fun s a s' hs _ hstep => by
    obtain ⟨he, rfl⟩ := step_eq_some.mp hstep
    exact hs.effect he
  obtain ⟨he, rfl⟩ := step_eq_some.mp hs
  cases a with
  | metadata mtime r =>
      unfold Announces at hn
      push Not at hn
      obtain ⟨hc, hnew, hfail, hf⟩ := hn
      have heff : s.effect d (.metadata mtime r) = { s with configChanged := false, place := .sync } := by
        unfold MainLoop.effect reload
        dsimp only
        rw [if_pos hnew, hfail]
      rw [heff]
      exact staleUse_sync rfl rfl (Bool.eq_false_iff.mpr hf) (hord.changed (beq_iff_eq.mp he) hc)
  | allocate x =>
      unfold Announces at hn
      push Not at hn
      obtain ⟨ha, hx, hscan⟩ := hn
      obtain ⟨cfg, hx⟩ := Option.isSome_iff_exists.mp hx
      have hb := hord.proc (.inr (beq_iff_eq.mp he))
      have heff : s.effect d (.allocate x) = { s with place := .poll, cacheScan := 0, cfg := cfg, stale := true } := by
        unfold MainLoop.effect
        dsimp only
        rw [if_pos ha, hx]
      rw [heff]
      refine staleUse_poll rfl ?_ rfl
      unfold flag
      dsimp only
      rw [hb]
      exact Bool.eq_false_iff.mpr hscan
  | _ => exact absurd trivial hn

/-- A device whose JSON library knows the files below. -/
def phone : Device :=
  ⟨parseOf [userFile, allocatedFile], fun _ => allocatedFile.1, "7".toList, "4-6".toList, "0-3".toList⟩

/-- The loop is entered with a rule for `com.a`. -/
def entered (bpfOk : Bool) : MainLoop :=
  { place := .poll, cfg := oneRule, inotify := true, bpfOk := bpfOk, needFullScan := true, proc := ProcState.new
    applied := ∅, cacheScan := 0, configChanged := false, stale := true }

theorem init_entered (bpfOk : Bool) : Init (entered bpfOk) := ⟨rfl, rfl, rfl, rfl, rfl⟩

/-- The user's file is read, written at the time 1. -/
def userReload : Reload := ⟨fun _ _ => false, some userFile.1, some 1, none⟩

/-- A first round without news, up to the correction. -/
def firstRound : List LoopInput :=
  [.readInotify none unreadable false, .metadata none unreadable, .fullScan ProcState.oneProcess.dir, .idle]

/-- Then the file is replaced, the new one is loaded but deleted before the watch is renewed, and
a newer one cannot be read. -/
def lostReload : List LoopInput :=
  firstRound ++ [.correct false fun _ => allAlive, .readInotify (some 2) userReload false,
    .metadata (some 2) unreadable, .fullScan ProcState.oneProcess.dir, .idle]

/-- Processes of `com.a` and of the unknown application `com.b`. -/
def twoApps : ProcSnapshot :=
  ⟨some 2, fun _ => true, some [⟨some 10, some "com.a".toList, none, some [⟨10, none, allAlive⟩]⟩,
    ⟨some 4711, some "com.b".toList, none, some [⟨4711, some "UnityMain".toList, allAlive⟩]⟩]⟩

/-- The start of a round of proc mode in which nothing has happened. -/
def quietStart : List LoopInput := [.readInotify none unreadable false, .metadata none unreadable, .procSync twoApps]

/-- After 30 rounds `com.b` is allocated; then nothing happens. -/
def lostMerge : List LoopInput :=
  (List.replicate 30 (quietStart ++ [.affinity false fun _ => allAlive,
    .allocate ⟨some [unreadableReading], none, true⟩])).flatten ++ quietStart

/-- In eBPF mode a correction restores the CPUs of the old rules; in proc mode an application
that has just been allocated is not looked at. -/
theorem stale_config_used :
    (∃ s, Runs.run (step phone) (entered true) lostReload = some s ∧ s.place = .correct ∧ s.stale = true ∧
      (s.proc.cache.tasks.lookup 10).map (·.cpus.toRangeString) = some "0-3".toList ∧
      (threadAffinity (fun _ => false) "com.a".toList [] s.cfg s.cfg.topo).map (·.cpus.toRangeString) =
        some "4-7".toList) ∧
    (∃ s, Runs.run (step phone) (entered false) lostMerge = some s ∧ s.place = .affinity ∧ s.stale = true ∧
      s.proc.cache.tasks.lookup 4711 = none ∧
      (threadAffinity (fun _ => false) "com.b".toList "UnityMain".toList s.cfg s.cfg.topo).map
        (·.cpus.toRangeString) = some "7".toList) ∧
    ¬ ∀ s s' a, Runs.Reachable (step phone) (fun _ _ => True) Init s → s.step phone a = some s' → s.UsesConfig a →
      s.stale = false := by
  obtain ⟨s₁, h₁, hp₁⟩ := Runs.exists_run (step phone) (entered true) lostReload
    (fun s => s.place == .correct && (s.stale &&
      ((s.proc.cache.tasks.lookup 10).map (·.cpus.toRangeString) == some "0-3".toList &&
        (threadAffinity (fun _ => false) "com.a".toList [] s.cfg s.cfg.topo).map (·.cpus.toRangeString) ==
          some "4-7".toList))) (by decide +kernel)
  obtain ⟨s₂, h₂, hp₂⟩ := Runs.exists_run (step phone) (entered false) lostMerge
    (fun s => s.place == .affinity && (s.stale && (s.proc.cache.tasks.lookup 4711 == none &&
      (threadAffinity (fun _ => false) "com.b".toList "UnityMain".toList s.cfg s.cfg.topo).map
        (·.cpus.toRangeString) == some "7".toList))) (by decide +kernel)
  simp only [Bool.and_eq_true, beq_iff_eq] at hp₁ hp₂
  refine ⟨⟨s₁, h₁, hp₁⟩, ⟨s₂, h₂, hp₂⟩, fun h => ?_⟩
  have hreach : Runs.Reachable (step phone) (fun _ _ => True) Init s₁ :=
    ⟨_, init_entered true, Runs.steps_of_run (fun _ _ _ => trivial) h₁⟩
  have hfresh := h s₁ _ (.correct true fun _ => allAlive) hreach
    (step_eq_some.mpr ⟨beq_iff_eq.mpr hp₁.1, rfl⟩) rfl
  rw [hp₁.2.1] at hfresh
  exact Bool.noConfusion hfresh

theorem uses_current_config_first :
    ∃ s s', Runs.run (step phone) (entered true) firstRound = some s ∧
      s.step phone (.correct true fun _ => allAlive) = some s' ∧ s.stale = false := by
  obtain ⟨s, hs, hp⟩ := Runs.exists_run (step phone) (entered true) firstRound (fun s => s.place == .correct)
    (by decide +kernel)
  have hstep : s.step phone (.correct true fun _ => allAlive) =
      some (s.effect phone (.correct true fun _ => allAlive)) := step_eq_some.mpr ⟨hp, rfl⟩
  have hok : ∀ a ∈ firstRound, ∀ s : MainLoop, s.Announces phone a := by
    intro a ha s
    simp only [firstRound, List.mem_cons, List.not_mem_nil, or_false] at ha
    rcases ha with rfl | rfl | rfl | rfl
    · trivial
    · intro _ hn
      simp [newer] at hn
    · trivial
    · trivial
  exact ⟨s, _, hs, hstep, uses_current_config phone s _ _ ⟨_, init_entered true, Runs.steps_of_run hok hs⟩ hstep rfl⟩

end MainLoop

end AetherOptExt
