import AetherOptExt.Daemon

/-! # Two ways to discover a process

A process that runs when the daemon starts is found by the scan, through its command line; one
that starts later is found by an event, through the 15 bytes of its main thread's name.  The
scan accepts a configured name, a name with a configured base, and a name that a wildcard
matches; the event path only a configured name that the thread name stands for.

`discovery_agrees_iff` says for which names the two paths agree: those the scan does not
select, and the configured names that their own thread name finds first (`NamesFirst`). -/

namespace AetherOptExt

/-- The name of a main thread called after its command line: the whole of it, or its last 15
bytes. -/
def nameComm (p : Str) : Comm :=
  ⟨(Str.utf8 p).drop ((Str.utf8 p).length - 15) ++ List.replicate (16 - min (Str.utf8 p).length 15) 0, by
    simp only [List.length_append, List.length_drop, List.length_replicate]
    omega⟩

/-- The scan selects the name. -/
def Selected (cfg : AppConfig) (p : Str) : Prop :=
  p ∈ cfg.pkgSet ∨ basePkg p ∈ cfg.pkgSet ∨ ∃ w ∈ cfg.wild, fnmatch w p = true

/-- The name is not selected at all, or it is configured and its thread name stands first for
it. -/
def DiscoveryAgrees (cfg : AppConfig) (p : Str) : Prop :=
  ¬ Selected cfg p ∨ (p ∈ cfg.pkgSet ∧ NamesFirst cfg (commStr (nameComm p)) p)

/-- A listing of `/proc`: no two entries are the same process. -/
def DistinctPids (entries : List ProcReading) : Prop := (entries.filterMap ProcReading.pid).Nodup

theorem DistinctPids.eq {r r' : ProcReading} {pid : Tid} (hp : r.pid = some pid) (hp' : r'.pid = some pid) :
    ∀ {entries : List ProcReading}, DistinctPids entries → r ∈ entries → r' ∈ entries → r = r'
  | u :: entries, hd, hr, hr' => by
      have hmem : ∀ {v : ProcReading}, v ∈ entries → v.pid = some pid → u.pid ≠ some pid := by
        intro v hv hvp hup
        unfold DistinctPids at hd
        rw [List.filterMap_cons_some hup, List.nodup_cons] at hd
        exact hd.1 (List.mem_filterMap.mpr ⟨v, hv, hvp⟩)
      have htail : DistinctPids entries := hd.sublist ((List.sublist_cons_self u entries).filterMap _)
      rcases List.mem_cons.mp hr with rfl | h
      · rcases List.mem_cons.mp hr' with rfl | h'
        · rfl
        · exact absurd hp (hmem h' hp')
      · rcases List.mem_cons.mp hr' with rfl | h'
        · exact absurd hp' (hmem h hp)
        · exact DistinctPids.eq hp hp' htail h h'

theorem scanTargets_pids (cfg : AppConfig) : ∀ entries : List ProcReading,
    ((entries.filterMap (scanTarget cfg)).map ScanTarget.pid).Sublist (entries.filterMap ProcReading.pid)
  | [] => List.Sublist.refl _
  | r :: entries => by
      have ih := scanTargets_pids cfg entries
      cases ht : scanTarget cfg r with
      | none =>
          rw [List.filterMap_cons_none ht]
          refine ih.trans ?_
          cases hp : r.pid with
          | none => rw [List.filterMap_cons_none hp]
          | some pid =>
              rw [List.filterMap_cons_some hp]
              exact List.sublist_cons_self _ _
      | some t =>
          obtain ⟨pid, pkg, hpid, -, -, rfl⟩ := scanTarget_eq_some.mp ht
          rw [List.filterMap_cons_some ht, List.filterMap_cons_some hpid]
          exact ih.cons_cons pid

/-- The scan maps a listed process exactly when it selects its name, and then to that name. -/
theorem fullScan_maps_iff {cfg : AppConfig} {entries : List ProcReading} (hd : DistinctPids entries)
    {r : ProcReading} (hr : r ∈ entries) {pid : Tid} (hpid : r.pid = some pid) {p : Str}
    (hp : readCmdline r.cmdline = some p) (htids : r.tids.isSome = true) (pc : ProcCache) (applied : AppliedMap) :
    (∃ htr, (fullScan cfg (some entries) pc applied).1.pkgs.lookup pid = some (p, htr)) ↔ Selected cfg p := by
  have hnodup : ((entries.filterMap (scanTarget cfg)).map ScanTarget.pid).Nodup :=
    hd.sublist (scanTargets_pids cfg entries)
  have hname : (readCmdline r.cmdline).or (tidComm r.comm) = some p := by rw [hp]; rfl
  constructor
  · rintro ⟨htr, h⟩
    by_contra hns
    have hne : ∀ t ∈ entries.filterMap (scanTarget cfg), t.pid ≠ pid := by
      intro t ht he
      obtain ⟨r', hr', ht⟩ := List.mem_filterMap.mp ht
      obtain ⟨pid', pkg, hpid', hpkg, hi, rfl⟩ := scanTarget_eq_some.mp ht
      obtain rfl : pid' = pid := he
      obtain rfl : r' = r := DistinctPids.eq hpid' hpid hd hr' hr
      rw [hname, Option.some.injEq] at hpkg
      exact hns (hpkg ▸ interested_iff.mp hi)
    change ((entries.filterMap (scanTarget cfg)).foldl (scanProc cfg) (pc.clear, appliedClear applied)).1.pkgs.lookup
      pid = _ at h
    rw [foldl_scanProc_lookup_ne cfg _ _ hne] at h
    cases h
  · intro hs
    refine ⟨cfg.pkgHasThreadRules p, ?_⟩
    have ht : (⟨pid, p, cfg.pkgHasThreadRules p, r.tids⟩ : ScanTarget) ∈ entries.filterMap (scanTarget cfg) :=
      List.mem_filterMap.mpr ⟨r, hr, scanTarget_eq_some.mpr ⟨pid, p, hpid, hname, interested_iff.mpr hs, rfl⟩⟩
    exact foldl_scanProc_lookup (t := ⟨pid, p, cfg.pkgHasThreadRules p, r.tids⟩) cfg htids _ _ hnodup ht

/-- On a miss the event path maps the process exactly as `comm_to_pkg` answers. -/
theorem pkgLookupComm_maps_iff {cfg : AppConfig} {pc : ProcCache} {pid : Tid} (hmiss : pc.pkgs.lookup pid = none)
    {comm p : Str} :
    (∃ htr, (pc.pkgLookupComm pid comm cfg).1 = some (p, htr)) ↔ p ∈ cfg.pkgSet ∧ NamesFirst cfg comm p := by
  rw [← commToPkg_eq_some_iff]
  unfold ProcCache.pkgLookupComm
  rw [hmiss]
  cases commToPkg comm cfg with
  | none => simp
  | some q => simp

/-- **When the two discoveries agree.** -/
theorem discovery_agrees_iff (cfg : AppConfig) (entries : List ProcReading) (hd : DistinctPids entries)
    (r : ProcReading) (hr : r ∈ entries) (pid : Tid) (hpid : r.pid = some pid) (p : Str)
    (hp : readCmdline r.cmdline = some p) (htids : r.tids.isSome = true) (pc pc' : ProcCache)
    (applied : AppliedMap) (hmiss : pc'.pkgs.lookup pid = none) :
    ((∃ htr, (fullScan cfg (some entries) pc applied).1.pkgs.lookup pid = some (p, htr)) ↔
      ∃ htr, (pc'.pkgLookupComm pid (commStr (nameComm p)) cfg).1 = some (p, htr)) ↔ DiscoveryAgrees cfg p := by
  rw [fullScan_maps_iff hd hr hpid hp htids, pkgLookupComm_maps_iff hmiss]
  unfold DiscoveryAgrees
  constructor
  · intro h
    by_cases hs : Selected cfg p
    · exact Or.inr (h.mp hs)
    · exact Or.inl hs
  · rintro (hns | hok)
    · exact iff_of_false hns fun h => hns (Or.inl h.1)
    · exact iff_of_true (Or.inl hok.1) hok

/-- A configuration whose only package is the wildcard `com.game.*`. -/
def wildcardConfig : AppConfig :=
  { rules := [], pkgSet := ⟨["com.game.*".toList], by decide⟩, wild := ["com.game.*".toList], mtime := 0
    ebpf := true, topo := ⟨CpuSet.new, [], false⟩ }

/-- The entry of a process without listed threads. -/
def quietProcess (pid : Tid) (name : Str) : ProcReading :=
  { pid := some pid, cmdline := some (name ++ ['\x00']), comm := none, tids := some [] }

/-- The scan maps `com.game.one`, the event path does not know it. -/
theorem discovery_wildcard_missed :
    ¬ ((∃ htr, (fullScan wildcardConfig (some [quietProcess 4711 "com.game.one".toList]) ProcCache.new ∅).1.pkgs.lookup
          4711 = some ("com.game.one".toList, htr)) ↔
        ∃ htr, (ProcCache.new.pkgLookupComm 4711 (commStr (nameComm "com.game.one".toList)) wildcardConfig).1 =
          some ("com.game.one".toList, htr)) := by
  intro h
  obtain ⟨htr, hl⟩ := h.mp ⟨false, by decide⟩
  have hnone : (ProcCache.new.pkgLookupComm 4711 (commStr (nameComm "com.game.one".toList)) wildcardConfig).1 = none := by
    decide
  rw [hnone] at hl
  cases hl

/-- A configured name that is longer than a thread's name. -/
def longName : Str := "com.example.gameone".toList

def longNameConfig : AppConfig := { oneRule with pkgSet := ⟨[longName], List.nodup_singleton _⟩ }

/-- Its process with one thread, and another one that is not configured. -/
def longNameDir : List ProcReading :=
  [{ quietProcess 4711 longName with tids := some [⟨4711, none, allAlive⟩] }, quietProcess 4712 "com.chat".toList]

/-- Both find the process, the event path by the last 15 bytes of the name. -/
theorem discovery_agrees_iff_long :
    (∃ htr, (fullScan longNameConfig (some longNameDir) ProcCache.new ∅).1.pkgs.lookup 4711 = some (longName, htr)) ∧
      (((∃ htr, (fullScan longNameConfig (some longNameDir) ProcCache.new ∅).1.pkgs.lookup 4711 =
            some (longName, htr)) ↔
          ∃ htr, (ProcCache.new.pkgLookupComm 4711 (commStr (nameComm longName)) longNameConfig).1 =
            some (longName, htr)) ↔ DiscoveryAgrees longNameConfig longName) := by
  refine ⟨⟨false, by decide +kernel⟩, ?_⟩
  exact discovery_agrees_iff longNameConfig longNameDir (by unfold DistinctPids; decide) _ List.mem_cons_self 4711 rfl
    longName (by decide) rfl ProcCache.new ProcCache.new ∅ rfl

end AetherOptExt
