import AetherOptExt.HotReload

/-! # Which updates of the configuration are noticed

A write between a load's read and the watch that is registered after it is not reported, and
one between the read and the metadata call makes the configuration look as new as the file,
which hides the write when no watch is open.  `WatchOk` excludes these.  Along the other runs,
whenever the daemon is at the top of its loop with nothing left to notice, the configuration in
force is that of the file (`no_update_lost`).

The invariant says, for each place of the daemon, what the next steps rely on (`Watcher.Right`):
that the last content read is the one in force when it could be loaded (`Taken`), that the file
is watched or a new watch will be asked for (`Covered`), that a change since the last read will
be reported (`Noticed`, `Kept`), or, without a watch, that the modification time tells it
(`Timed`). -/

namespace AetherOptExt

namespace Watcher

section

variable (parse : Str → Option JsonValue) (topo : CpuTopology)

/-! ### The condition -/

/-- The file that was read has the content of `f`. -/
def SameContent (file : Option File) (f : File) : Prop := ∃ g, file = some g ∧ g.bytes = f.bytes

/-- The last load has read the file as it is now, if its content can be loaded. -/
def Current (s : Watcher) : Prop := ∀ f, s.file = some f → Parses parse f → s.readOf = some f

/-- The configuration in force is from the content that the file has now. -/
def UpToDate (s : Watcher) : Prop := ∀ f, s.file = some f → Parses parse f → SameContent s.cfgOf f

/-- A new watch is asked for while an event that asks for a reload is unread. -/
def ReloadDue (s : Watcher) : Prop :=
  s.place = .rewatch ∧ ∃ i, s.inotify = some i ∧ i.events.any InotifyEvent.reload = true

/-- The condition on the daemon's steps.  A watch is registered only while the file is as the
load has read it, or has the content in force, or will be read again; the modification time is
read by a load that a comparison asked for only while the file has the content that was read;
and when no watch can be registered, the file's time is newer than the one in force, or its
content is the one in force. -/
def WatchOk (s : Watcher) : WatchAction → Prop
  | .register ok =>
      if ok then s.Current parse ∨ s.UpToDate parse ∨ s.ReloadDue
      else ∀ f, s.file = some f → Parses parse f → ∀ cfg, s.cfg = some cfg →
        cfg.mtime < f.mtime ∨ SameContent s.cfgOf f
  | .metadata _ => ∀ l, s.place = .stat .body l →
      ∀ f, s.file = some f → Parses parse f → SameContent s.readOf f
  | _ => True

/-! ### What the places rely on -/

/-- If the file is as the last load has read it, the configuration in force is from it. -/
def Taken (s : Watcher) : Prop :=
  ∀ f, s.file = some f → Parses parse f → s.readOf = some f → s.cfgOf = some f

/-- A load has read the content `l`. -/
def ReadAs (s : Watcher) (l : Loaded × Bool) : Prop :=
  ∃ f dirs, s.readOf = some f ∧ loadParse parse dirs topo (readToString (some f)) = some l

/-- The file is watched, or an event that asks for a new watch is unread. -/
def Covered (s : Watcher) (i : Inotify) : Prop :=
  (∃ f, s.file = some f ∧ f.inode ∈ i.watches) ∨ i.events.any InotifyEvent.rewatch = true

/-- The last load has read the file as it is, or an event that asks for a reload is unread. -/
def Noticed (s : Watcher) (i : Inotify) : Prop := s.Current parse ∨ i.events.any InotifyEvent.reload = true

/-- A file that is not newer than the configuration in force has the content it is from. -/
def Timed (s : Watcher) : Prop :=
  ∀ cfg, s.cfg = some cfg → ∀ f, s.file = some f → Parses parse f → f.mtime ≤ cfg.mtime → SameContent s.cfgOf f

/-- Changes of the file will be noticed. -/
def Kept (s : Watcher) : Prop :=
  match s.inotify with
  | none => s.Timed parse
  | some i => s.Covered i ∧ (s.UpToDate parse ∨ i.events.any InotifyEvent.reload = true)

/-- What holds at each place. -/
def PlaceRight (s : Watcher) : Prop :=
  match s.place with
  | .read .boot => s.cfg = none
  | .stat .boot l => s.ReadAs parse topo l
  | .stopped => True
  | .init => s.cfg.isSome = true ∧ s.Taken parse
  | .top => s.cfg.isSome = true ∧ s.Kept parse
  | .compare => s.cfg.isSome = true ∧ s.Kept parse
  | .body => s.cfg.isSome = true ∧ s.Kept parse
  | .read .compare => s.cfg.isSome = true ∧ ∃ i, s.inotify = some i ∧ s.Covered i
  | .stat .compare l => s.cfg.isSome = true ∧ s.ReadAs parse topo l ∧ ∃ i, s.inotify = some i ∧ s.Covered i ∧ s.Noticed parse i
  | .read .rewatch => s.cfg.isSome = true ∧ s.inotify.isSome = true
  | .stat .rewatch l => s.cfg.isSome = true ∧ s.ReadAs parse topo l ∧ s.inotify.isSome = true
  | .rewatch => s.cfg.isSome = true ∧ s.Taken parse ∧ s.inotify.isSome = true
  | .read .body => s.cfg.isSome = true ∧ s.inotify = none ∧ s.Timed parse
  | .stat .body l => s.cfg.isSome = true ∧ s.ReadAs parse topo l ∧ s.inotify = none ∧ s.Timed parse

structure Right (s : Watcher) : Prop where
  file_past : ∀ f, s.file = some f → f.mtime < s.clock
  read_past : ∀ f, s.readOf = some f → f.mtime < s.clock
  cfg_past : ∀ cfg, s.cfg = some cfg → cfg.mtime < s.clock
  source : ∀ cfg, s.cfg = some cfg → ∃ f, s.cfgOf = some f ∧ LoadedFrom parse topo f cfg
  place : s.PlaceRight parse topo

end

/-! ### The writer -/

/-- What the writer leaves alone, and what its steps mean for a watch. -/
structure Written (s s' : Watcher) : Prop where
  place : s'.place = s.place
  cfg : s'.cfg = s.cfg
  readOf : s'.readOf = s.readOf
  cfgOf : s'.cfgOf = s.cfgOf
  clock : s.clock ≤ s'.clock
  file : s'.file = s.file ∨ s'.file = none ∨ ∃ f, s'.file = some f ∧ s.clock ≤ f.mtime ∧ f.mtime < s'.clock
  closed : s.inotify = none → s'.inotify = none
  watch : ∀ i, s.inotify = some i → ∃ i', s'.inotify = some i' ∧
    (∀ e ∈ i.events, e ∈ i'.events) ∧ (s.Covered i → s'.Covered i') ∧
    (s.Covered i → s'.file ≠ s.file → i'.events.any InotifyEvent.reload = true)

theorem any_of_subset {i i' : Inotify} {p : InotifyEvent → Bool} (h : ∀ e ∈ i.events, e ∈ i'.events)
    (hp : i.events.any p = true) : i'.events.any p = true := by
  obtain ⟨e, he, hpe⟩ := List.any_eq_true.mp hp
  exact List.any_eq_true.mpr ⟨e, h e he, hpe⟩

/-- An event that asks for a new watch asks for a reload too. -/
theorem reload_of_rewatch {events : List InotifyEvent} (h : events.any InotifyEvent.rewatch = true) :
    events.any InotifyEvent.reload = true := by
  obtain ⟨e, he, hr⟩ := List.any_eq_true.mp h
  refine List.any_eq_true.mpr ⟨e, he, ?_⟩
  cases e with
  | ignored => cases hr
  | _ => rfl

theorem mem_notify {i : Inotify} {inode : ℕ} {evs : List InotifyEvent} {e : InotifyEvent} (h : e ∈ i.events) :
    e ∈ (i.notify inode evs).events := by
  unfold Inotify.notify
  split_ifs
  · exact List.mem_append_left evs h
  · exact h

theorem notify_watches (i : Inotify) (inode : ℕ) (evs : List InotifyEvent) :
    (i.notify inode evs).watches = i.watches := by
  unfold Inotify.notify
  split_ifs <;> rfl

/-- What happens to a watched inode is reported. -/
theorem mem_notify_new {i : Inotify} {inode : ℕ} {evs : List InotifyEvent} {e : InotifyEvent}
    (hw : inode ∈ i.watches) (he : e ∈ evs) : e ∈ (i.notify inode evs).events := by
  unfold Inotify.notify
  rw [if_pos hw]
  exact List.mem_append_right i.events he

/-- After something that asks for a new watch has happened to the covered file. -/
theorem covered_after {s s' : Watcher} {i i' : Inotify} {f : File} (hf : s.file = some f)
    (hsub : ∀ e ∈ i.events, e ∈ i'.events)
    (hnew : f.inode ∈ i.watches → i'.events.any InotifyEvent.rewatch = true) (hc : s.Covered i) :
    s'.Covered i' ∧ i'.events.any InotifyEvent.reload = true := by
  have hr : i'.events.any InotifyEvent.rewatch = true := by
    rcases hc with ⟨g, hg, hw⟩ | hr
    · obtain rfl := Option.some.inj (hf.symm.trans hg)
      exact hnew hw
    · exact any_of_subset hsub hr
  exact ⟨Or.inr hr, reload_of_rewatch hr⟩

/-- A covered file that is deleted asks for a new watch. -/
theorem covered_remove {s : Watcher} (s' : Watcher) {f : File} (hf : s.file = some f) {i : Inotify} (hc : s.Covered i) :
    s'.Covered (i.remove f.inode) ∧ (i.remove f.inode).events.any InotifyEvent.reload = true := by
  refine covered_after hf (fun e he => mem_notify he) (fun hw => ?_) hc
  exact List.any_eq_true.mpr ⟨.deleteSelf, mem_notify_new hw List.mem_cons_self, rfl⟩

/-- So does one that is moved away. -/
theorem covered_move {s : Watcher} (s' : Watcher) {f : File} (hf : s.file = some f) {i : Inotify} (hc : s.Covered i) :
    s'.Covered (i.notify f.inode [.moveSelf]) ∧
      (i.notify f.inode [.moveSelf]).events.any InotifyEvent.reload = true := by
  refine covered_after hf (fun e he => mem_notify he) (fun hw => ?_) hc
  exact List.any_eq_true.mpr ⟨.moveSelf, mem_notify_new hw List.mem_cons_self, rfl⟩

/-- A step of the writer changes the file and tells the inotify instance, if there is one. -/
theorem written_of_map {s : Watcher} {file : Option File} {clock : ℕ} (g : Inotify → Inotify)
    (hclock : s.clock ≤ clock)
    (hfile : file = s.file ∨ file = none ∨ ∃ f, file = some f ∧ s.clock ≤ f.mtime ∧ f.mtime < clock)
    (hsub : ∀ i, ∀ e ∈ i.events, e ∈ (g i).events)
    (hcov : ∀ i, s.Covered i → Covered { s with file := file } (g i))
    (hnew : ∀ i, s.Covered i → file ≠ s.file → (g i).events.any InotifyEvent.reload = true) :
    Written s { s with file := file, clock := clock, inotify := s.inotify.map g } := by
  refine ⟨rfl, rfl, rfl, rfl, hclock, hfile, fun hi => ?_, fun i hi => ⟨g i, ?_, hsub i, hcov i, hnew i⟩⟩
  · show s.inotify.map g = none
    rw [hi]
    rfl
  · show s.inotify.map g = some (g i)
    rw [hi]
    rfl

/-- A write to a covered file is reported, and the file stays covered. -/
theorem covered_write {s : Watcher} (s' : Watcher) {f g : File} (hf : s.file = some f) (hg : s'.file = some g)
    (hinode : g.inode = f.inode) {i : Inotify} (hc : s.Covered i) :
    s'.Covered (i.notify f.inode [.closeWrite]) ∧
      (i.notify f.inode [.closeWrite]).events.any InotifyEvent.reload = true := by
  rcases hc with ⟨f', hf', hw⟩ | hr
  · obtain rfl := Option.some.inj (hf.symm.trans hf')
    refine ⟨Or.inl ⟨g, hg, ?_⟩, List.any_eq_true.mpr ⟨.closeWrite, mem_notify_new hw List.mem_cons_self, rfl⟩⟩
    rw [notify_watches, hinode]
    exact hw
  · exact ⟨Or.inr (any_of_subset (fun e he => mem_notify he) hr),
      any_of_subset (fun e he => mem_notify he) (reload_of_rewatch hr)⟩

/-- An absent file is covered by an unread event. -/
theorem rewatch_of_absent {s : Watcher} (hf : s.file = none) {i : Inotify} (hc : s.Covered i) :
    i.events.any InotifyEvent.rewatch = true := by
  rcases hc with ⟨g, hg, -⟩ | hr
  · rw [hf] at hg
    cases hg
  · exact hr

/-- What happens to another inode leaves the file covered. -/
theorem covered_elsewhere {s : Watcher} {inode : ℕ} (hfile : ¬ s.file.any (fun f => f.inode == inode) = true)
    (deleted : Bool) {i : Inotify} (hc : s.Covered i) :
    s.Covered (if deleted then i.remove inode else i.notify inode [.closeWrite]) := by
  rcases hc with ⟨g, hg, hw⟩ | hr
  · have hne : g.inode ≠ inode := by
      intro he
      exact hfile (by rw [hg]; exact beq_iff_eq.mpr he)
    refine Or.inl ⟨g, hg, ?_⟩
    split_ifs
    · exact List.mem_filter.mpr ⟨hw, bne_iff_ne.mpr hne⟩
    · rw [notify_watches]
      exact hw
  · right
    split_ifs
    · exact any_of_subset (fun e he => mem_notify he) hr
    · exact any_of_subset (fun e he => mem_notify he) hr

theorem written_of_writerStep {s s' : Watcher} {w : WriterAction} (h : s.writerStep w = some s') : Written s s' := by
  cases w with
  | write bytes =>
      obtain ⟨f, hf, rfl⟩ := Option.map_eq_some_iff.mp h
      exact written_of_map _ (Nat.le_succ _) (Or.inr (Or.inr ⟨_, rfl, le_rfl, Nat.lt_succ_self _⟩))
        (fun i e he => mem_notify he)
        (fun i hc => (covered_write _ hf (g := ⟨f.inode, bytes, s.clock⟩) rfl rfl hc).1)
        fun i hc _ => (covered_write s hf hf rfl hc).2
  | delete =>
      obtain ⟨f, hf, rfl⟩ := Option.map_eq_some_iff.mp h
      exact written_of_map _ le_rfl (Or.inr (Or.inl rfl)) (fun i e he => mem_notify he)
        (fun i hc => (covered_remove _ hf hc).1) fun i hc _ => (covered_remove s hf hc).2
  | replace bytes =>
      obtain rfl := Option.some.inj h
      have hfile : ∃ f : File, some ⟨s.clock, bytes, s.clock⟩ = some f ∧ s.clock ≤ f.mtime ∧ f.mtime < s.clock + 1 :=
        ⟨_, rfl, le_rfl, Nat.lt_succ_self _⟩
      cases hf : s.file with
      | none =>
          have hw := @written_of_map s (some ⟨s.clock, bytes, s.clock⟩) (s.clock + 1) id (Nat.le_succ _)
            (Or.inr (Or.inr hfile)) (fun i e he => he) (fun i hc => Or.inr (rewatch_of_absent hf hc))
            fun i hc _ => reload_of_rewatch (rewatch_of_absent hf hc)
          rw [Option.map_id] at hw
          exact hw
      | some f =>
          exact written_of_map _ (Nat.le_succ _) (Or.inr (Or.inr hfile)) (fun i e he => mem_notify he)
            (fun i hc => (covered_remove _ hf hc).1) fun i hc _ => (covered_remove s hf hc).2
  | moveAway =>
      obtain ⟨f, hf, rfl⟩ := Option.map_eq_some_iff.mp h
      exact written_of_map _ le_rfl (Or.inr (Or.inl rfl)) (fun i e he => mem_notify he)
        (fun i hc => (covered_move _ hf hc).1) fun i hc _ => (covered_move s hf hc).2
  | elsewhere inode deleted =>
      unfold writerStep at h
      simp only at h
      by_cases hfile : s.file.any (fun f => f.inode == inode) = true
      · rw [if_pos hfile] at h
        cases h
      · rw [if_neg hfile] at h
        obtain rfl := Option.some.inj h
        refine written_of_map _ le_rfl (Or.inl rfl) (fun i e he => ?_) (fun i hc => covered_elsewhere hfile deleted hc)
          fun i _ hne => absurd rfl hne
        split_ifs
        · exact mem_notify he
        · exact mem_notify he

/-! ### What the writer cannot spoil -/

section

variable {parse : Str → Option JsonValue} {topo : CpuTopology} {s s' : Watcher}

/-- A file after a step of the writer is the old one, or newer than everything. -/
theorem Written.same_or_new (h : Written s s') {f : File} (hf : s'.file = some f) :
    s.file = some f ∨ s.clock ≤ f.mtime := by
  rcases h.file with he | he | ⟨g, hg, hn, -⟩
  · exact Or.inl (he ▸ hf)
  · rw [he] at hf
    cases hf
  · obtain rfl := Option.some.inj (hg.symm.trans hf)
    exact Or.inr hn

theorem Taken.written (h : s.Taken parse) (hpast : ∀ f, s.readOf = some f → f.mtime < s.clock) (hw : Written s s') :
    s'.Taken parse := by
  intro f hf hp hr
  rw [hw.readOf] at hr
  rw [hw.cfgOf]
  rcases hw.same_or_new hf with hf | hn
  · exact h f hf hp hr
  · have := hpast f hr
    omega

theorem ReadAs.written {l : Loaded × Bool} (h : s.ReadAs parse topo l) (hw : Written s s') :
    s'.ReadAs parse topo l := by
  unfold ReadAs
  rw [hw.readOf]
  exact h

theorem Timed.written (h : s.Timed parse) (hpast : ∀ cfg, s.cfg = some cfg → cfg.mtime < s.clock)
    (hw : Written s s') : s'.Timed parse := by
  intro cfg hcfg f hf hp hle
  rw [hw.cfg] at hcfg
  rw [hw.cfgOf]
  rcases hw.same_or_new hf with hf | hn
  · exact h cfg hcfg f hf hp hle
  · have := hpast cfg hcfg
    omega

theorem Noticed.written {i i' : Inotify} (h : s.Noticed parse i) (hw : Written s s')
    (hsub : ∀ e ∈ i.events, e ∈ i'.events) (hnew : s'.file ≠ s.file → i'.events.any InotifyEvent.reload = true) :
    s'.Noticed parse i' := by
  rcases h with h | h
  · by_cases hf : s'.file = s.file
    · left
      unfold Current
      rw [hf, hw.readOf]
      exact h
    · exact Or.inr (hnew hf)
  · exact Or.inr (any_of_subset hsub h)

/-- A change of a covered file is reported. -/
theorem UpToDate.written {i i' : Inotify} (h : s.UpToDate parse ∨ i.events.any InotifyEvent.reload = true)
    (hw : Written s s') (hsub : ∀ e ∈ i.events, e ∈ i'.events)
    (hnew : s'.file ≠ s.file → i'.events.any InotifyEvent.reload = true) :
    s'.UpToDate parse ∨ i'.events.any InotifyEvent.reload = true := by
  rcases h with h | h
  · by_cases hf : s'.file = s.file
    · left
      unfold UpToDate
      rw [hf, hw.cfgOf]
      exact h
    · exact Or.inr (hnew hf)
  · exact Or.inr (any_of_subset hsub h)

theorem Kept.written (h : s.Kept parse) (hpast : ∀ cfg, s.cfg = some cfg → cfg.mtime < s.clock)
    (hw : Written s s') : s'.Kept parse := by
  unfold Kept at h ⊢
  cases hi : s.inotify with
  | none =>
      rw [hi] at h
      rw [hw.closed hi]
      exact h.written hpast hw
  | some i =>
      rw [hi] at h
      obtain ⟨i', hi', hsub, hcov, hnew⟩ := hw.watch i hi
      rw [hi']
      exact ⟨hcov h.1, UpToDate.written h.2 hw hsub (hnew h.1)⟩

/-- What a place relies on, the writer leaves true. -/
theorem Right.place_written (h : s.Right parse topo) (hw : Written s s') : s'.PlaceRight parse topo := by
  have hsome : s.inotify.isSome = true → s'.inotify.isSome = true := by
    intro hi
    obtain ⟨i, hi⟩ := Option.isSome_iff_exists.mp hi
    obtain ⟨i', hi', -⟩ := hw.watch i hi
    rw [hi']
    rfl
  have hp := h.place
  unfold PlaceRight at hp ⊢
  rw [hw.place, hw.cfg]
  cases hplace : s.place with
  | read next =>
      rw [hplace] at hp
      cases next with
      | boot => exact hp
      | compare =>
          obtain ⟨hc, i, hi, hcov⟩ := hp
          obtain ⟨i', hi', -, hcov', -⟩ := hw.watch i hi
          exact ⟨hc, i', hi', hcov' hcov⟩
      | rewatch => exact ⟨hp.1, hsome hp.2⟩
      | body =>
          obtain ⟨hc, hi, htimed⟩ := hp
          exact ⟨hc, hw.closed hi, htimed.written h.cfg_past hw⟩
  | stat next l =>
      rw [hplace] at hp
      cases next with
      | boot => exact hp.written hw
      | compare =>
          obtain ⟨hc, hr, i, hi, hcov, hn⟩ := hp
          obtain ⟨i', hi', hsub, hcov', hnew⟩ := hw.watch i hi
          exact ⟨hc, hr.written hw, i', hi', hcov' hcov, hn.written hw hsub (hnew hcov)⟩
      | rewatch => exact ⟨hp.1, hp.2.1.written hw, hsome hp.2.2⟩
      | body =>
          obtain ⟨hc, hr, hi, htimed⟩ := hp
          exact ⟨hc, hr.written hw, hw.closed hi, htimed.written h.cfg_past hw⟩
  | init =>
      rw [hplace] at hp
      exact ⟨hp.1, hp.2.written h.read_past hw⟩
  | rewatch =>
      rw [hplace] at hp
      exact ⟨hp.1, hp.2.1.written h.read_past hw, hsome hp.2.2⟩
  | top =>
      rw [hplace] at hp
      exact ⟨hp.1, hp.2.written h.cfg_past hw⟩
  | compare =>
      rw [hplace] at hp
      exact ⟨hp.1, hp.2.written h.cfg_past hw⟩
  | body =>
      rw [hplace] at hp
      exact ⟨hp.1, hp.2.written h.cfg_past hw⟩
  | stopped => trivial

theorem Right.written (h : s.Right parse topo) (hw : Written s s') : s'.Right parse topo := by
  have hcfg := hw.cfg
  refine ⟨fun f hf => ?_, fun f hf => ?_, fun cfg hc => ?_, fun cfg hc => ?_, h.place_written hw⟩
  · rcases hw.file with he | he | ⟨g, hg, -, hn⟩
    · exact (h.file_past f (he ▸ hf)).trans_le hw.clock
    · rw [he] at hf
      cases hf
    · obtain rfl := Option.some.inj (hg.symm.trans hf)
      exact hn
  · exact (h.read_past f (hw.readOf ▸ hf)).trans_le hw.clock
  · exact (h.cfg_past cfg (hcfg ▸ hc)).trans_le hw.clock
  · rw [hw.cfgOf]
    exact h.source cfg (hcfg ▸ hc)

/-! ### The daemon -/

/-- Nothing is asked of the configuration in force when the file cannot be loaded. -/
theorem kept_of_not_parses {s : Watcher} {i : Inotify} (hi : s.inotify = some i) (hcov : s.Covered i)
    (hn : ∀ f, s.file = some f → ¬ Parses parse f) : s.Kept parse := by
  unfold Kept
  rw [hi]
  exact ⟨hcov, Or.inl fun f hf hparses => absurd hparses (hn f hf)⟩

theorem Right.loadRead (h : s.Right parse topo) {next : Next} (hplace : s.place = .read next)
    (dirs : ℕ → DirCall → Bool) : (s.loadRead parse topo dirs next).Right parse topo := by
  refine ⟨h.file_past, h.file_past, h.cfg_past, h.source, ?_⟩
  have hp := h.place
  unfold PlaceRight at hp
  rw [hplace] at hp
  unfold Watcher.loadRead
  cases hl : loadParse parse dirs topo (readToString s.file) with
  | none =>
      have hn : ∀ f, s.file = some f → ¬ Parses parse f := by
        intro f hf
        rw [hf] at hl
        exact loadParse_eq_none hl
      cases next with
      | boot => trivial
      | compare =>
          obtain ⟨hc, i, hi, hcov⟩ := hp
          exact ⟨hc, @kept_of_not_parses _ { s with readOf := s.file, place := .compare } i hi hcov hn⟩
      | rewatch => exact ⟨hp.1, fun f hf hparses => absurd hparses (hn f hf), hp.2⟩
      | body =>
          obtain ⟨hc, hi, htimed⟩ := hp
          refine ⟨hc, ?_⟩
          unfold Kept
          simp only [hi]
          exact htimed
  | some l =>
      obtain ⟨f, hf⟩ := exists_of_loadParse hl
      have hread : ∀ p : Place, ReadAs parse topo { s with readOf := s.file, place := p } l := fun _ =>
        ⟨f, dirs, hf, by rw [← hf]; exact hl⟩
      cases next with
      | boot => exact hread _
      | compare =>
          obtain ⟨hc, i, hi, hcov⟩ := hp
          exact ⟨hc, hread _, i, hi, hcov, Or.inl fun _ hf _ => hf⟩
      | rewatch => exact ⟨hp.1, hread _, hp.2⟩
      | body => exact ⟨hp.1, hread _, hp.2⟩

/-- The metadata call of a load finds no file. -/
theorem Right.loadStat_none (h : s.Right parse topo) {next : Next} {l : Loaded × Bool} (hplace : s.place = .stat next l)
    (hf : s.file = none) : Right parse topo { s with place := next.failed } := by
  have hp := h.place
  unfold PlaceRight at hp
  rw [hplace] at hp
  refine ⟨h.file_past, h.read_past, h.cfg_past, h.source, ?_⟩
  have hn : ∀ f, s.file = some f → ¬ Parses parse f := by
    intro f hf'
    rw [hf] at hf'
    cases hf'
  cases next with
  | boot => trivial
  | compare =>
      obtain ⟨hc, -, i, hi, hcov, -⟩ := hp
      exact ⟨hc, @kept_of_not_parses _ { s with place := .compare } i hi hcov hn⟩
  | rewatch => exact ⟨hp.1, fun f hf' hparses => absurd hparses (hn f hf'), hp.2.2⟩
  | body =>
      obtain ⟨hc, -, hi, htimed⟩ := hp
      refine ⟨hc, ?_⟩
      unfold Kept
      simp only [hi]
      exact htimed

/-- It finds the file, and what was read comes into force. -/
theorem Right.loadStat_some (h : s.Right parse topo) {next : Next} {l : Loaded × Bool} (hplace : s.place = .stat next l)
    {cache : Option Str} (hok : WatchOk parse s (.metadata cache)) {f : File} (hf : s.file = some f) :
    Right parse topo
      { s with
        cfg := some ((AppConfig.ofLoaded topo l f.mtime).mergeCache parse cache)
        cfgOf := s.readOf
        place := next.loaded } := by
  have hp := h.place
  unfold PlaceRight at hp
  rw [hplace] at hp
  have hread : s.ReadAs parse topo l := by
    cases next with
    | boot => exact hp
    | compare => exact hp.2.1
    | rewatch => exact hp.2.1
    | body => exact hp.2.1
  obtain ⟨g, dirs, hg, hl⟩ := hread
  refine ⟨h.file_past, h.read_past, fun cfg hc => ?_, fun cfg hc => ?_, ?_⟩
  · obtain rfl := Option.some.inj hc
    exact h.file_past f hf
  · obtain rfl := Option.some.inj hc
    exact ⟨g, hg, .load f.mtime cache hl⟩
  · cases next with
    | boot => exact ⟨rfl, fun _ _ _ hr => hr⟩
    | compare =>
        obtain ⟨-, -, i, hi, hcov, hn⟩ := hp
        refine ⟨rfl, ?_⟩
        unfold Kept
        simp only [hi]
        exact ⟨hcov, hn.imp_left fun hcur f' hf' hparses => ⟨f', hcur f' hf' hparses, rfl⟩⟩
    | rewatch => exact ⟨rfl, fun _ _ _ hr => hr, hp.2.2⟩
    | body =>
        obtain ⟨-, -, hi, -⟩ := hp
        refine ⟨rfl, ?_⟩
        unfold Kept
        simp only [hi]
        exact fun _ _ f' hf' hparses _ => hok l hplace f' hf' hparses

theorem Right.loadStat (h : s.Right parse topo) {next : Next} {l : Loaded × Bool} (hplace : s.place = .stat next l)
    {cache : Option Str} (hok : WatchOk parse s (.metadata cache)) :
    (s.loadStat parse topo cache next l).Right parse topo := by
  rcases Option.eq_none_or_eq_some s.file with hf | ⟨f, hf⟩
  · have he : s.loadStat parse topo cache next l = { s with place := next.failed } := by
      unfold Watcher.loadStat
      rw [hf]
    rw [he]
    exact h.loadStat_none hplace hf
  · have he : s.loadStat parse topo cache next l =
        { s with
          cfg := some ((AppConfig.ofLoaded topo l f.mtime).mergeCache parse cache)
          cfgOf := s.readOf
          place := next.loaded } := by
      unfold Watcher.loadStat
      rw [hf]
    rw [he]
    exact h.loadStat_some hplace hok hf

theorem Right.merge (h : s.Right parse topo) (hplace : s.place = .init ∨ s.place = .body) (cache : Option Str) :
    Right parse topo { s with cfg := s.cfg.map (AppConfig.mergeCache parse cache) } := by
  have hold : ∀ cfg, s.cfg.map (AppConfig.mergeCache parse cache) = some cfg →
      ∃ cfg₀, s.cfg = some cfg₀ ∧ cfg₀.mergeCache parse cache = cfg := fun cfg hc => Option.map_eq_some_iff.mp hc
  refine ⟨h.file_past, h.read_past, fun cfg hc => ?_, fun cfg hc => ?_, ?_⟩
  · obtain ⟨cfg₀, h₀, rfl⟩ := hold cfg hc
    exact h.cfg_past cfg₀ h₀
  · obtain ⟨cfg₀, h₀, rfl⟩ := hold cfg hc
    obtain ⟨f, hf, hl⟩ := h.source cfg₀ h₀
    exact ⟨f, hf, hl.merge cache⟩
  · have hp := h.place
    unfold PlaceRight at hp ⊢
    simp only [Option.isSome_map]
    rcases hplace with hplace | hplace
    · rw [hplace] at hp
      rw [hplace]
      exact hp
    · rw [hplace] at hp
      rw [hplace]
      refine ⟨hp.1, ?_⟩
      have hk := hp.2
      unfold Kept at hk ⊢
      cases hi : s.inotify with
      | none =>
          simp only [hi] at hk ⊢
          intro cfg hc f hf hparses hle
          obtain ⟨cfg₀, h₀, rfl⟩ := hold cfg hc
          exact hk cfg₀ h₀ f hf hparses hle
      | some i =>
          simp only [hi] at hk ⊢
          exact hk

/-- Where a watch is registered, the content that was read last is in force. -/
theorem Right.ready (h : s.Right parse topo) (hplace : s.place = .init ∨ s.place = .rewatch) :
    s.cfg.isSome = true ∧ s.Taken parse := by
  have hp := h.place
  unfold PlaceRight at hp
  rcases hplace with hplace | hplace
  · rw [hplace] at hp
    exact hp
  · rw [hplace] at hp
    exact ⟨hp.1, hp.2.1⟩

/-- The watch of the file is changed, and the daemon goes on with its round. -/
theorem Right.rewatched (h : s.Right parse topo) (hplace : s.place = .init ∨ s.place = .rewatch) {i : Option Inotify}
    {a : Place} (ha : a = .top ∨ a = .compare) (hk : Kept parse { s with inotify := i, place := a }) :
    Right parse topo { s with inotify := i, place := a } := by
  refine ⟨h.file_past, h.read_past, h.cfg_past, h.source, ?_⟩
  rcases ha with rfl | rfl
  · exact ⟨(h.ready hplace).1, hk⟩
  · exact ⟨(h.ready hplace).1, hk⟩

/-- A file that is as the load has read it has the content in force. -/
theorem Taken.upToDate (h : s.Taken parse) (hc : s.Current parse) : s.UpToDate parse := fun f hf hparses =>
  ⟨f, h f hf hparses (hc f hf hparses), rfl⟩

/-- A watch is registered; `i` is the instance afterwards. -/
theorem Right.kept_watched (h : s.Right parse topo) (hplace : s.place = .init ∨ s.place = .rewatch)
    (hok : WatchOk parse s (.register true)) {f : File} (hf : s.file = some f) {i : Inotify} (hw : f.inode ∈ i.watches)
    (hevents : s.ReloadDue → i.events.any InotifyEvent.reload = true) (a : Place) :
    Kept parse { s with inotify := some i, place := a } := by
  refine ⟨Or.inl ⟨f, hf, hw⟩, ?_⟩
  rcases hok with hcur | hup | hdue
  · exact Or.inl ((h.ready hplace).2.upToDate hcur)
  · exact Or.inl hup
  · exact Or.inr (hevents hdue)

theorem kept_unwatched (hok : WatchOk parse s (.register false)) (a : Place) :
    Kept parse { s with inotify := none, place := a } := by
  intro cfg hc f hf hparses hle
  exact (hok f hf hparses cfg hc).resolve_left (Nat.not_lt.mpr hle)

/-- What is not in the batch that is read stays unread. -/
theorem any_drop {i : Inotify} {p : InotifyEvent → Bool} (hp : i.events.any p = true) (hb : i.batch.any p = false) :
    (i.events.drop 64).any p = true := by
  rw [← List.take_append_drop 64 i.events, List.any_append, Bool.or_eq_true] at hp
  rcases hp with hp | hp
  · rw [Inotify.batch, hp] at hb
    cases hb
  · exact hp

theorem Right.roundTop (h : s.Right parse topo) (hplace : s.place = .top) : s.roundTop.Right parse topo := by
  refine ⟨h.file_past, h.read_past, h.cfg_past, h.source, ?_⟩
  have hp := h.place
  unfold PlaceRight at hp
  rw [hplace] at hp
  obtain ⟨hc, hk⟩ := hp
  unfold Kept at hk
  unfold Watcher.roundTop AetherOptExt.readInotify
  cases hi : s.inotify with
  | none =>
      rw [hi] at hk
      exact ⟨hc, hk⟩
  | some i =>
      rw [hi] at hk
      obtain ⟨hcov, hn⟩ := hk
      have hcovered : i.batch.any InotifyEvent.rewatch = false →
          ∀ p : Place, Covered { s with inotify := some { i with events := i.events.drop 64 }, place := p }
            { i with events := i.events.drop 64 } := by
        intro hb p
        exact hcov.imp_right fun hr => any_drop hr hb
      cases hb : i.batch.any InotifyEvent.reload with
      | false =>
          have hnone : i.batch.any InotifyEvent.rewatch = false := by
            rw [Bool.eq_false_iff]
            intro hr
            rw [reload_of_rewatch hr] at hb
            cases hb
          simp only [hb, Bool.false_eq_true, if_false]
          exact ⟨hc, hcovered hnone _, hn.imp_right fun hr => any_drop hr hb⟩
      | true =>
          cases hw : i.batch.any InotifyEvent.rewatch with
          | false =>
              simp only [hb, hw, if_true, Bool.false_eq_true, if_false]
              exact ⟨hc, _, rfl, hcovered hw _⟩
          | true =>
              simp only [hb, hw, if_true]
              exact ⟨hc, rfl⟩

theorem Right.compare (h : s.Right parse topo) (hplace : s.place = .compare) :
    Right parse topo { s with place := if s.inotify.isNone && s.newer then .read .body else .body } := by
  have hp := h.place
  unfold PlaceRight at hp
  rw [hplace] at hp
  refine ⟨h.file_past, h.read_past, h.cfg_past, h.source, ?_⟩
  split_ifs with hb
  · obtain ⟨hc, hk⟩ := hp
    have hi : s.inotify = none := Option.isNone_iff_eq_none.mp (Bool.and_eq_true _ _ ▸ hb).1
    unfold Kept at hk
    rw [hi] at hk
    exact ⟨hc, hi, hk⟩
  · exact hp

theorem Right.step {a : WatchAction} (h : s.Right parse topo) (hok : WatchOk parse s a)
    (hs : s.step parse topo a = some s') : s'.Right parse topo := by
  have hp := h.place
  unfold PlaceRight at hp
  cases step_case hs with
  | writer hw => exact h.written (written_of_writerStep hw)
  | @read dirs _ hplace => exact h.loadRead hplace dirs
  | metadata hplace => exact h.loadStat hplace hok
  | @merge cache hplace => exact h.merge hplace cache
  | watched hplace hf =>
      refine h.rewatched (Or.inl hplace) (Or.inl rfl) (h.kept_watched (Or.inl hplace) hok hf List.mem_cons_self ?_ _)
      rintro ⟨hr, -⟩
      rw [hplace] at hr
      cases hr
  | unwatched hplace => exact h.rewatched (Or.inl hplace) (Or.inl rfl) (kept_unwatched hok _)
  | rewatched hplace hf hi =>
      refine h.rewatched (Or.inr hplace) (Or.inr rfl) (h.kept_watched (Or.inr hplace) hok hf List.mem_cons_self ?_ _)
      rintro ⟨-, i, hi', hr⟩
      obtain rfl := Option.some.inj (hi.symm.trans hi')
      exact hr
  | closed hplace hi => exact h.rewatched (Or.inr hplace) (Or.inr rfl) (kept_unwatched hok _)
  | skipped hplace hi =>
      -- an instance is open where a new watch is asked for
      rw [hplace, hi] at hp
      exact absurd hp.2.2 Bool.false_ne_true
  | readInotify hplace => exact h.roundTop hplace
  | compare hplace => exact h.compare hplace
  | round hplace =>
      rw [hplace] at hp
      exact ⟨h.file_past, h.read_past, h.cfg_past, h.source, hp⟩

/-! ### Runs -/

theorem right_init (h : Init s) : s.Right parse topo := by
  refine ⟨fun f hf => (h.past f hf).2, fun f hf => ?_, fun cfg hc => ?_, fun cfg hc => ?_, ?_⟩
  · rw [h.readOf] at hf
    cases hf
  · rw [h.cfg] at hc
    cases hc
  · rw [h.cfg] at hc
    cases hc
  · unfold PlaceRight
    rw [h.place]
    exact h.cfg

theorem Right.of_reachable (h : Runs.Reachable (Watcher.step parse topo) (WatchOk parse) Init s) :
    s.Right parse topo :=
  h.invariant (fun _ h₀ => right_init h₀) fun _ _ _ hi hok hs => hi.step hok hs

/-- What has been noticed is in force. -/
theorem Right.sameContent_top (h : s.Right parse topo) (htop : s.place = .top)
    (hquiet : ∀ i, s.inotify = some i → i.events = [])
    (htime : s.inotify = none → ∀ f cfg, s.file = some f → s.cfg = some cfg → f.mtime ≤ cfg.mtime)
    {f : File} (hf : s.file = some f) (hp : Parses parse f) : s.cfg.isSome = true ∧ SameContent s.cfgOf f := by
  have hplace := h.place
  unfold PlaceRight at hplace
  rw [htop] at hplace
  obtain ⟨hc, hk⟩ := hplace
  refine ⟨hc, ?_⟩
  obtain ⟨cfg, hcfg⟩ := Option.isSome_iff_exists.mp hc
  unfold Kept at hk
  cases hi : s.inotify with
  | none =>
      rw [hi] at hk
      exact hk cfg hcfg f hf hp (htime hi f cfg hf hcfg)
  | some i =>
      rw [hi] at hk
      rcases hk.2 with hup | hev
      · exact hup f hf hp
      · rw [hquiet i hi] at hev
        cases hev

end

/-- **No update is lost.**  At the top of the loop, with no unread event or, without a watch,
with a file that is not newer, the configuration in force is that of the file, if it can be
loaded. -/
theorem no_update_lost (parse : Str → Option JsonValue) (topo : CpuTopology) (s : Watcher)
    (h : Runs.Reachable (Watcher.step parse topo) (WatchOk parse) Init s) (htop : s.place = .top)
    (hquiet : ∀ i, s.inotify = some i → i.events = [])
    (htime : s.inotify = none → ∀ f cfg, s.file = some f → s.cfg = some cfg → f.mtime ≤ cfg.mtime)
    (f : File) (hf : s.file = some f) (hp : Parses parse f) :
    ∃ cfg, s.cfg = some cfg ∧ LoadedFrom parse topo f cfg := by
  have hright := Right.of_reachable h
  obtain ⟨hc, g, hg, hbytes⟩ := hright.sameContent_top htop hquiet htime hf hp
  obtain ⟨cfg, hcfg⟩ := Option.isSome_iff_exists.mp hc
  obtain ⟨g', hg', hl⟩ := hright.source cfg hcfg
  obtain rfl := Option.some.inj (hg.symm.trans hg')
  exact ⟨cfg, hcfg, hl.of_bytes hbytes⟩

/-! ### A write before the watch -/

/-- A file that binds `com.a` to some CPUs. -/
def boundTo (cpus : Str) : Str × JsonValue :=
  (plainText ["com.a".toList] cpus, oneEntryFile (plainEntry ["com.a".toList] cpus))

/-- The file for the CPUs 0 to 3, and for 4 to 7. -/
def littleFile : Str × JsonValue := boundTo "0-3".toList

def bigFile : Str × JsonValue := boundTo "4-7".toList

/-- The daemon starts with the first file. -/
def starting : Watcher := ⟨some ⟨0, Str.utf8 littleFile.1, 0⟩, 1, none, .read .boot, none, none, none⟩

theorem starting_init : Init starting := by
  refine ⟨rfl, rfl, rfl, rfl, rfl, fun f hf => ?_⟩
  obtain rfl := Option.some.inj hf
  exact ⟨Nat.zero_lt_one, Nat.zero_lt_one⟩

theorem readToString_utf8 (inode : ℕ) (text : Str) (mtime : ℕ) :
    readToString (some ⟨inode, Str.utf8 text, mtime⟩) = some text :=
  Str.fromUtf8_eq_some_iff.mpr rfl


/-- A configuration that is such a file's starts with the file's rule. -/
theorem LoadedFrom.head_line {parse : Str → Option JsonValue} {topo : CpuTopology} {f : File} {cpus : Str}
    {cfg : AppConfig} (hparse : parse (boundTo cpus).1 = some (boundTo cpus).2)
    (hf : readToString (some f) = some (boundTo cpus).1) (h : LoadedFrom parse topo f cfg) :
    (cfg.rules.map Rule.line).head? = some ("com.a".toList, [], cpus) := by
  obtain ⟨text, root, entries, ebpf, merged, htext, hroot, hentries, hc⟩ := h.configured
  obtain rfl := Option.some.inj (hf.symm.trans htext)
  obtain rfl := Option.some.inj (hparse.symm.trans hroot)
  have hone : loadRoot (boundTo cpus).2 = some ([plainEntry ["com.a".toList] cpus], false) := rfl
  obtain ⟨rfl, -⟩ := Prod.mk.inj (Option.some.inj (hone.symm.trans hentries))
  rw [hc.lines]
  rfl

/-- A load that reads the text. -/
theorem read_step {parse : Str → Option JsonValue} {topo : CpuTopology} {dirs : ℕ → DirCall → Bool} {s : Watcher}
    {next : Next} {text : Str} {l : Loaded × Bool} (hplace : s.place = .read next)
    (htext : readToString s.file = some text) (hl : loadParse parse dirs topo (some text) = some l) :
    Watcher.step parse topo s (.read dirs) = some { s with readOf := s.file, place := .stat next l } := by
  simp only [Watcher.step, hplace]
  unfold loadRead
  rw [htext, hl]

/-- The start up to the first watch. -/
theorem starting_loaded {parse : Str → Option JsonValue} {topo : CpuTopology} {dirs : ℕ → DirCall → Bool}
    {l : Loaded × Bool} (hl : loadParse parse dirs topo (some littleFile.1) = some l) :
    Runs.Steps (Watcher.step parse topo) (WatchOk parse) starting
      { starting with
        readOf := starting.file
        cfg := some ((AppConfig.ofLoaded topo l 0).mergeCache parse none)
        cfgOf := starting.file
        place := .init } := by
  have hread : Watcher.step parse topo starting (.read dirs) =
      some { starting with readOf := starting.file, place := .stat .boot l } :=
    read_step rfl (readToString_utf8 _ _ _) hl
  refine .tail (.single (a := .read dirs) trivial hread) (a := .metadata none) (fun l' hplace => ?_) rfl
  cases hplace

/-- The file is rewritten after the load and before the watch: it is never read. -/
theorem write_before_watch_lost :
    ∃ (s : Watcher) (f : File) (cfg : AppConfig),
      Runs.Reachable (Watcher.step (parseOf [littleFile, bigFile]) eightCpus) (fun _ _ => True) Init s ∧
      s.place = .top ∧ (∃ i, s.inotify = some i ∧ i.events = []) ∧
      s.file = some f ∧ Parses (parseOf [littleFile, bigFile]) f ∧
      s.cfg = some cfg ∧ ¬ LoadedFrom (parseOf [littleFile, bigFile]) eightCpus f cfg := by
  obtain ⟨l, hl⟩ : ∃ l, loadParse (parseOf [littleFile, bigFile]) (fun _ _ => false) eightCpus
      (some littleFile.1) = some l := ⟨_, rfl⟩
  have hloaded : LoadedFrom (parseOf [littleFile, bigFile]) eightCpus ⟨0, Str.utf8 littleFile.1, 0⟩
      ((AppConfig.ofLoaded eightCpus l 0).mergeCache (parseOf [littleFile, bigFile]) none) :=
    .load 0 none (by rw [readToString_utf8]; exact hl)
  have hrun := (starting_loaded hl).mono fun _ _ _ => trivial
  refine ⟨_, ⟨0, Str.utf8 bigFile.1, 1⟩, _, ⟨starting, starting_init,
    .tail (.tail hrun (a := .writer (.write (Str.utf8 bigFile.1))) trivial rfl) (a := .register true) trivial rfl⟩,
    rfl, ⟨_, rfl, rfl⟩, rfl, ?_, rfl, fun hbig => ?_⟩
  · unfold Parses
    rw [readToString_utf8]
    rfl
  · have hlittle := hloaded.head_line rfl (readToString_utf8 _ _ _)
    rw [hbig.head_line rfl (readToString_utf8 _ _ _)] at hlittle
    exact absurd hlittle (by decide)

/-- The file after it has been rewritten under the watch. -/
def rewritten : File := ⟨0, Str.utf8 bigFile.1, 1⟩

/-- The start up to the watch, a write of the second file, and the round that reads its event. -/
theorem watched_write {l l' : Loaded × Bool}
    (hl : loadParse (parseOf [littleFile, bigFile]) (fun _ _ => false) eightCpus (some littleFile.1) = some l)
    (hl' : loadParse (parseOf [littleFile, bigFile]) (fun _ _ => false) eightCpus (some bigFile.1) = some l') :
    Runs.Steps (Watcher.step (parseOf [littleFile, bigFile]) eightCpus) (WatchOk (parseOf [littleFile, bigFile]))
      starting
      { file := some rewritten
        clock := 2
        inotify := some ⟨[0], []⟩
        place := .top
        cfg := some ((AppConfig.ofLoaded eightCpus l' 1).mergeCache (parseOf [littleFile, bigFile]) none)
        readOf := some rewritten
        cfgOf := some rewritten } := by
  have hwatched := (starting_loaded hl).tail (a := WatchAction.register true) (Or.inl fun _ hf _ => hf) rfl
  have hwritten := hwatched.tail (a := WatchAction.writer (.write (Str.utf8 bigFile.1))) trivial rfl
  have hnoticed := hwritten.tail (a := WatchAction.readInotify) trivial rfl
  have hread := hnoticed.tail (a := WatchAction.read fun _ _ => false) trivial
    (read_step rfl (readToString_utf8 _ _ _) hl')
  have hloaded := hread.tail (a := WatchAction.metadata none) (fun _ hplace => by cases hplace) rfl
  exact (hloaded.tail (a := WatchAction.compare) trivial rfl).tail (a := WatchAction.round) trivial rfl

/-- The write is not lost: the configuration in force is that of the second file. -/
theorem no_update_lost_written :
    ∃ s, Runs.Steps (Watcher.step (parseOf [littleFile, bigFile]) eightCpus) (WatchOk (parseOf [littleFile, bigFile]))
        starting s ∧ s.place = .top ∧ s.file = some rewritten ∧
      ∃ cfg, s.cfg = some cfg ∧ LoadedFrom (parseOf [littleFile, bigFile]) eightCpus rewritten cfg := by
  obtain ⟨l, hl⟩ : ∃ l, loadParse (parseOf [littleFile, bigFile]) (fun _ _ => false) eightCpus
      (some littleFile.1) = some l := ⟨_, rfl⟩
  obtain ⟨l', hl'⟩ : ∃ l, loadParse (parseOf [littleFile, bigFile]) (fun _ _ => false) eightCpus
      (some bigFile.1) = some l := ⟨_, rfl⟩
  refine ⟨_, watched_write hl hl', rfl, rfl, no_update_lost (parseOf [littleFile, bigFile]) eightCpus _
    ⟨starting, starting_init, watched_write hl hl'⟩ rfl (fun i hi => ?_) (fun hi => ?_) rewritten rfl ?_⟩
  · obtain rfl := Option.some.inj hi
    rfl
  · cases hi
  · unfold Parses rewritten
    rw [readToString_utf8]
    rfl

end Watcher

end AetherOptExt
