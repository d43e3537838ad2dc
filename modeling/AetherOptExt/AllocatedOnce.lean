import AetherOptExt.CacheUpsert
import AetherOptExt.ConfigInForce

/-! # Applications are allocated once

An allocation writes an entry for every unknown application to the cache file and merges the file;
a later reload replaces the configuration and merges the file again.  `Stored` runs the main loop
with the file beside it: what a reload or an allocation reads is what the allocations before have
left.

Once the entry of an application is written, `scan_unknown` never lists the application again, so
that no later allocation replaces its entry (`Stored.allocated_once`).  Those of the entries that
were there before, whoever wrote them, stay too: from start-up on the file only grows
(`Stored.entries_stay`).  The JSON library has to give back the arrays that `save` prints in the run,
as texts that begin with a bracket (`Stored.PrintsBack`). -/

namespace AetherOptExt

open Keyed cache

/-! ### One allocation -/

/-- The applications that an allocation finds. -/
def Allocation.unknown (a : Allocation) (cfg : AppConfig) : List UnknownApp := scanUnknown cfg.pkgSet cfg.wild a.dir

/-- The calls of `save` that write an entry. -/
def Allocation.calls (d : Device) (a : Allocation) (cfg : AppConfig) : List SaveCall :=
  ((a.unknown cfg).filter (fun app => !isBlacklisted app.pkg)).map
    (fun app => ⟨app.pkg, a.unknown cfg, d.big, d.mid, d.little⟩)

/-- The cache file after an allocation. -/
def Allocation.file (d : Device) (a : Allocation) (cfg : AppConfig) : Option Str :=
  if a.written then saveAll d.parse d.stringifyPretty a.cache (a.calls d cfg) else a.cache

variable {d : Device} {a : Allocation} {cfg cfg' : AppConfig} {p : Str} {e : JsonValue}

/-- A call for a blacklisted application writes nothing. -/
theorem foldl_saveFile (u : List UnknownApp) (d : Device) : ∀ (apps : List UnknownApp) (file : Option Str),
    apps.foldl (fun file app => (save d.parse d.stringifyPretty file app.pkg u d.big d.mid d.little).or file) file =
      saveAll d.parse d.stringifyPretty file ((apps.filter (fun app => !isBlacklisted app.pkg)).map
        (fun app => ⟨app.pkg, u, d.big, d.mid, d.little⟩))
  | [], file => rfl
  | app :: apps, file => by
      rw [List.foldl_cons, foldl_saveFile u d apps]
      cases hb : isBlacklisted app.pkg with
      | true =>
          rw [List.filter_cons_of_neg (by simp [hb])]
          unfold save
          rw [hb]
          rfl
      | false =>
          rw [List.filter_cons_of_pos (by simp [hb])]
          rfl

/-- The allocation of the main loop merges the file that it has written. -/
theorem autoAllocate_eq : autoAllocate d a cfg =
    if a.calls d cfg = [] then none else some (cfg.mergeCache d.parse (a.file d cfg)) := by
  have hfold : (scanUnknown cfg.pkgSet cfg.wild a.dir).foldl (fun file app =>
      if a.written then (save d.parse d.stringifyPretty file app.pkg (scanUnknown cfg.pkgSet cfg.wild a.dir) d.big d.mid
        d.little).or file else file) a.cache = a.file d cfg := by
    unfold Allocation.file
    cases a.written with
    | true => exact foldl_saveFile _ d _ _
    | false => exact List.foldl_fixed _
  have hnone : (scanUnknown cfg.pkgSet cfg.wild a.dir).all (fun app => isBlacklisted app.pkg) = true ↔
      a.calls d cfg = [] := by
    unfold Allocation.calls
    rw [List.map_eq_nil_iff, List.filter_eq_nil_iff, List.all_eq_true]
    simp only [Bool.not_eq_true', Bool.not_eq_false]
    rfl
  unfold autoAllocate
  simp only [hnone, hfold]

theorem file_of_no_calls (h : a.calls d cfg = []) : a.file d cfg = a.cache := by
  unfold Allocation.file
  rw [h]
  exact ite_self _

/-- An application that is listed is not configured. -/
theorem not_mem_of_scanUnknown {set : KeySet Str} {wild : List Str} {dir : Option (List UnknownReading)}
    {app : UnknownApp} (h : app ∈ scanUnknown set wild dir) : app.pkg ∉ set := by
  unfold scanUnknown at h
  obtain ⟨r, -, hr⟩ := List.mem_filterMap.mp h
  unfold unknownApp at hr
  simp only [Option.bind_eq_bind, Option.bind_eq_some_iff] at hr
  obtain ⟨pid, -, cl, -, status, -, hr⟩ := hr
  split_ifs at hr with hc
  obtain rfl := Option.some.inj hr
  intro hmem
  exact hc (by simp [hmem])

theorem mem_calls {c : SaveCall} (h : c ∈ a.calls d cfg) :
    c.pkg ∉ cfg.pkgSet ∧ isBlacklisted c.pkg = false ∧
      c.entry = allocEntry c.pkg (a.unknown cfg) d.big d.mid d.little := by
  unfold Allocation.calls at h
  obtain ⟨app, happ, rfl⟩ := List.mem_map.mp h
  obtain ⟨happ, hb⟩ := List.mem_filter.mp happ
  exact ⟨not_mem_of_scanUnknown happ, by simpa using hb, rfl⟩

theorem mem_calls_of_unknown {app : UnknownApp} (h : app ∈ a.unknown cfg) (hb : isBlacklisted app.pkg = false) :
    ⟨app.pkg, a.unknown cfg, d.big, d.mid, d.little⟩ ∈ a.calls d cfg :=
  List.mem_map.mpr ⟨app, List.mem_filter.mpr ⟨h, by simp [hb]⟩, rfl⟩

/-! ### The entries of the file -/

/-- The library gives back an array that it prints, as a text that begins with a bracket. -/
def JsonBack (d : Device) (es : List JsonValue) : Prop :=
  d.parse (d.stringifyPretty (.array es)) = some (.array es) ∧
    ((d.stringifyPretty (.array es)).dropWhile Str.isWhitespace).head? = some '['

/-- It gives back the array of every call of an allocation. -/
def Allocation.PrintsBack (d : Device) (a : Allocation) (cfg : AppConfig) : Prop :=
  ∀ cs, cs <+: a.calls d cfg → cs ≠ [] → JsonBack d (entriesAfter (oldEntries d.parse a.cache) cs)

/-- A call upserts the entries that `save` finds. -/
theorem saveFile_oldEntries {file : Option Str} {c : SaveCall} (hb : isBlacklisted c.pkg = false) :
    saveFile d.parse d.stringifyPretty file c =
      some (d.stringifyPretty (.array (upsert saveKey (oldEntries d.parse file) c.entry))) := by
  have hkeep : (oldEntries d.parse file).filter (fun e => (e.get "packages").first.asStr != some c.pkg) =
      (oldEntries d.parse file).filter (fun e => saveKey e ≠ saveKey c.entry) := by
    refine List.filter_congr fun e _ => ?_
    rw [saveKey_entry, Bool.eq_iff_iff, bne_iff_ne, decide_eq_true_eq]
    rfl
  unfold saveFile save deduped
  rw [hb, if_neg Bool.false_ne_true, hkeep]
  rfl

/-- The file of a sequence of calls that print arrays that parse back. -/
theorem oldEntries_saveAll {file : Option Str} (calls : List SaveCall) (hb : ∀ c ∈ calls, isBlacklisted c.pkg = false)
    (hback : ∀ cs, cs <+: calls → cs ≠ [] → JsonBack d (entriesAfter (oldEntries d.parse file) cs)) :
    oldEntries d.parse (saveAll d.parse d.stringifyPretty file calls) =
      entriesAfter (oldEntries d.parse file) calls := by
  induction calls using List.reverseRecOn with
  | nil => rfl
  | append_singleton calls c ih =>
      have ih := ih (fun c hc => hb c (List.mem_append_left _ hc))
        fun cs hcs => hback cs (hcs.trans (List.prefix_append _ _))
      have hlast : saveAll d.parse d.stringifyPretty file (calls ++ [c]) =
          some (d.stringifyPretty (.array (entriesAfter (oldEntries d.parse file) (calls ++ [c])))) := by
        unfold saveAll at ih ⊢
        rw [List.foldl_append, entriesAfter_snoc, ← ih]
        exact saveFile_oldEntries (hb c (List.mem_append_right _ (List.mem_singleton_self c)))
      obtain ⟨hparse, hbracket⟩ := hback _ (List.prefix_refl _) (by simp)
      rw [hlast]
      exact oldEntries_eq hparse hbracket

theorem oldEntries_file (hw : a.written = true) (hback : a.PrintsBack d cfg) :
    oldEntries d.parse (a.file d cfg) = entriesAfter (oldEntries d.parse a.cache) (a.calls d cfg) := by
  unfold Allocation.file
  rw [if_pos hw]
  exact oldEntries_saveAll _ (fun c hc => (mem_calls hc).2.1) hback

/-- The calls for a package write one entry of it when they agree on the entry. -/
theorem withKey_entriesAfter_same (items : List JsonValue) (calls : List SaveCall)
    (hsame : ∀ c ∈ calls, c.pkg = p → c.entry = e) :
    withKey saveKey p (entriesAfter items calls) =
      if ∃ c ∈ calls, c.pkg = p then [e] else withKey saveKey p items := by
  induction calls using List.reverseRecOn with
  | nil => simp [entriesAfter, upserts]
  | append_singleton calls c ih =>
      have ih := ih fun c hc => hsame c (List.mem_append_left _ hc)
      rw [entriesAfter_snoc]
      by_cases hc : c.pkg = p
      · have hentry := hsame c (List.mem_append_right _ (List.mem_singleton_self c)) hc
        have hkey : saveKey c.entry = some p := congrArg some hc
        rw [withKey_upsert_same hkey, hentry, if_pos ⟨c, by simp, hc⟩]
      · have hkeep : withKey saveKey p (upsert saveKey (entriesAfter items calls) c.entry) =
            withKey saveKey p (entriesAfter items calls) := by
          refine filter_upsert fun e' he' => ?_
          rw [of_decide_eq_true he', saveKey_entry]
          exact fun h => hc (Option.some.inj h).symm
        rw [hkeep, ih]
        simp [hc]

/-- The entries that `save` finds are those of an array in the file. -/
theorem bind_parse_of_oldEntries {file : Option Str} (h : oldEntries d.parse file ≠ []) :
    file.bind d.parse = some (.array (oldEntries d.parse file)) := by
  unfold oldEntries at h ⊢
  dsimp only at h ⊢
  split_ifs at h ⊢ with hc
  · exact absurd rfl h
  cases file with
  | none => exact absurd rfl hc
  | some text =>
      rw [Option.getD_some] at h ⊢
      rw [Option.bind_some]
      cases hroot : d.parse text with
      | none =>
          rw [hroot] at h
          exact absurd rfl h
      | some root =>
          rw [hroot] at h
          cases root with
          | array es => rfl
          | _ => exact absurd rfl h

/-- `merge` takes a name that heads an entry of the file. -/
theorem mem_cacheEntries_of_withKey {file : Option Str} (h : withKey saveKey p (oldEntries d.parse file) ≠ []) :
    ∃ e ∈ cacheEntries d.parse file, p ∈ entryPackages e := by
  have hold : oldEntries d.parse file ≠ [] := by
    intro hnil
    rw [hnil] at h
    exact h rfl
  obtain ⟨e, he⟩ := List.exists_mem_of_ne_nil _ h
  obtain ⟨he, hkey⟩ := mem_withKey.mp he
  have hmem : e ∈ withKey mergeKey p (oldEntries d.parse file) :=
    mem_withKey.mpr ⟨he, (mergeKey_eq_saveKey ⟨p, hkey⟩).trans hkey⟩
  have hcache : cacheEntries d.parse file = mergedEntries (oldEntries d.parse file) KeySet.empty := by
    unfold cacheEntries
    rw [bind_parse_of_oldEntries hold]
    rfl
  have hfirst := withKey_mergedEntries (p := p) (oldEntries d.parse file) KeySet.empty
  rw [if_neg (KeySet.mem_empty p), ← hcache, List.head?_eq_some_head (List.ne_nil_of_mem hmem)] at hfirst
  have htaken : (withKey mergeKey p (oldEntries d.parse file)).head (List.ne_nil_of_mem hmem) ∈
      withKey mergeKey p (cacheEntries d.parse file) := by
    rw [hfirst]
    exact List.mem_singleton_self _
  obtain ⟨htaken, hhead⟩ := mem_withKey.mp htaken
  exact ⟨_, htaken, List.mem_of_mem_head? hhead⟩

/-! ### The loop and the file -/

/-- The main loop with the cache file. -/
structure Stored where
  loop : MainLoop
  file : Option Str

/-- The text of the cache file that a part of a round meets. -/
def LoopInput.cacheText : LoopInput → Option (Option Str)
  | .readInotify _ r _ => some r.cache
  | .metadata _ r => some r.cache
  | .allocate a => some a.cache
  | _ => none

namespace Stored

/-- The file after a part of a round. -/
def fileAfter (d : Device) (s : Stored) : LoopInput → Option Str
  | .allocate a => if s.loop.allocates then a.file d s.loop.cfg else s.file
  | _ => s.file

/-- A part of a round reads what is in the file. -/
def step (d : Device) (s : Stored) (a : LoopInput) : Option Stored :=
  if a.cacheText.all (fun text => text == s.file) then (s.loop.step d a).map (fun loop => ⟨loop, s.fileAfter d a⟩)
  else none

/-- The library gives back what an allocation prints. -/
def PrintsBack (d : Device) (s : Stored) : LoopInput → Prop
  | .allocate a => s.loop.allocates = true → a.PrintsBack d s.loop.cfg
  | _ => True

/-- The state after an allocation under `cfg`, at startup or in a round (`after_of_step`). -/
def After (d : Device) (a : Allocation) (cfg : AppConfig) (s : Stored) : Prop :=
  autoAllocate d a cfg = some s.loop.cfg ∧ s.file = a.file d cfg

/-- The configuration names what `merge` finds in the file. -/
def Merged (d : Device) (s : Stored) : Prop :=
  ∀ e ∈ cacheEntries d.parse s.file, ∀ n ∈ entryPackages e, n ∈ s.loop.cfg.pkgSet

/-- The file has one entry of the package, and it is merged. -/
structure Kept (d : Device) (p : Str) (e : JsonValue) (s : Stored) : Prop where
  merged : s.Merged d
  entry : withKey saveKey p (oldEntries d.parse s.file) = [e]

variable {s s' : Stored} {i : LoopInput}

theorem step_eq_some : s.step d i = some s' ↔
    (∀ text ∈ i.cacheText, text = s.file) ∧ s.loop.enabled i = true ∧ s' = ⟨s.loop.effect d i, s.fileAfter d i⟩ := by
  have hread : i.cacheText.all (fun text => text == s.file) = true ↔ ∀ text ∈ i.cacheText, text = s.file := by
    cases i.cacheText with
    | none => simp
    | some text => simp
  unfold step
  split_ifs with h
  · rw [Option.map_eq_some_iff, and_iff_right (hread.mp h)]
    constructor
    · rintro ⟨loop, hl, rfl⟩
      obtain ⟨he, rfl⟩ := MainLoop.step_eq_some.mp hl
      exact ⟨he, rfl⟩
    · rintro ⟨he, rfl⟩
      exact ⟨_, MainLoop.step_eq_some.mpr ⟨he, rfl⟩, rfl⟩
  · exact ⟨fun h' => absurd h' (by simp), fun h' => absurd (hread.mpr h'.1) h⟩

theorem merged_mergeCache {loop : MainLoop} {file : Option Str} (h : loop.cfg = cfg.mergeCache d.parse file) :
    Merged d ⟨loop, file⟩ := by
  intro e he n hn
  dsimp only
  rw [h]
  exact mem_mergeCache_pkgSet.mpr (.inr ⟨e, he, hn⟩)

theorem After.merged (h : s.After d a cfg) : s.Merged d := by
  obtain ⟨hcfg, hfile⟩ := h
  rw [autoAllocate_eq] at hcfg
  split_ifs at hcfg
  have hcfg := (Option.some.inj hcfg).symm
  rw [← hfile] at hcfg
  exact merged_mergeCache hcfg

/-- A reload merges the file again. -/
theorem Merged.reload {r : Reload} (h : s.Merged d) (hr : r.cache = s.file) (loop : MainLoop)
    (hl : loop.cfg = s.loop.cfg) : Merged d ⟨loop.reload d r, s.file⟩ := by
  unfold MainLoop.reload
  cases hx : hotReload d r loop.cfg with
  | none =>
      intro e he n hn
      dsimp only
      rw [hl]
      exact h e he n hn
  | some cfg =>
      unfold hotReload at hx
      obtain ⟨cfg₀, -, rfl⟩ := Option.map_eq_some_iff.mp hx
      rw [hr]
      exact merged_mergeCache rfl

theorem Merged.of_cfg {loop : MainLoop} (h : s.Merged d) (hc : loop.cfg = s.loop.cfg) : Merged d ⟨loop, s.file⟩ := by
  intro e he n hn
  dsimp only
  rw [hc]
  exact h e he n hn

theorem Merged.effect (h : s.Merged d) (hread : ∀ text ∈ i.cacheText, text = s.file) :
    Merged d ⟨s.loop.effect d i, s.fileAfter d i⟩ := by
  cases i with
  | readInotify ev r rewatched =>
      have hr : r.cache = s.file := hread _ rfl
      unfold MainLoop.effect MainLoop.readInotify fileAfter
      dsimp only
      split
      · exact h.reload hr _ rfl
      · exact (h.reload hr { s.loop with configChanged := false, place := .compare } rfl).of_cfg rfl
      · exact h.of_cfg rfl
  | metadata mtime r =>
      have hr : r.cache = s.file := hread _ rfl
      unfold MainLoop.effect fileAfter
      dsimp only
      split_ifs
      · exact (h.reload hr s.loop rfl).of_cfg rfl
      · exact h.of_cfg rfl
  | fullScan dir =>
      unfold MainLoop.effect fileAfter
      dsimp only
      split_ifs
      · exact h.of_cfg rfl
      · exact h.of_cfg rfl
  | procSync snap => exact h.of_cfg rfl
  | dispatch env event => exact h.of_cfg rfl
  | idle => exact h.of_cfg rfl
  | disconnected => exact h.of_cfg rfl
  | correct elapsed env =>
      cases elapsed with
      | true => exact h.of_cfg rfl
      | false => exact h.of_cfg rfl
  | affinity elapsed env =>
      unfold MainLoop.effect fileAfter
      dsimp only
      split_ifs
      · exact h.of_cfg rfl
      · exact h.of_cfg rfl
  | allocate a =>
      have hr : a.cache = s.file := hread _ rfl
      unfold MainLoop.effect fileAfter
      dsimp only
      split_ifs
      · cases hx : autoAllocate d a s.loop.cfg with
        | none =>
            rw [autoAllocate_eq] at hx
            split_ifs at hx with hcalls
            rw [file_of_no_calls hcalls, hr]
            exact h.of_cfg rfl
        | some cfg =>
            rw [autoAllocate_eq] at hx
            split_ifs at hx
            exact merged_mergeCache (Option.some.inj hx).symm
      · exact h.of_cfg rfl

/-- The configuration names the package of every entry of the file. -/
theorem Merged.mem_pkgSet (h : s.Merged d) (he : e ∈ oldEntries d.parse s.file) (hk : saveKey e = some p) :
    p ∈ s.loop.cfg.pkgSet := by
  obtain ⟨e', he', hmem⟩ := mem_cacheEntries_of_withKey (List.ne_nil_of_mem (mem_withKey.mpr ⟨he, hk⟩))
  exact h e' he' p hmem

/-- No allocation has a call for a package that the file remembers. -/
theorem Merged.key_ne (h : s.Merged d) (he : e ∈ oldEntries d.parse s.file) :
    ∀ c ∈ a.calls d s.loop.cfg, saveKey e ≠ some c.pkg :=
  fun _ hc hk => (mem_calls hc).1 (h.mem_pkgSet he hk)

theorem Kept.mem_entries (h : s.Kept d p e) : e ∈ oldEntries d.parse s.file ∧ saveKey e = some p :=
  mem_withKey.mp (h.entry ▸ List.mem_singleton_self e)

theorem Kept.no_call (h : s.Kept d p e) : ∀ c ∈ a.calls d s.loop.cfg, c.pkg ≠ p :=
  fun c hc hp => h.merged.key_ne h.mem_entries.1 c hc (hp ▸ h.mem_entries.2)

theorem Kept.file (h : s.Kept d p e) (hok : s.PrintsBack d i) (hread : ∀ text ∈ i.cacheText, text = s.file) :
    withKey saveKey p (oldEntries d.parse (s.fileAfter d i)) = [e] := by
  cases i with
  | allocate a =>
      have hr : a.cache = s.file := hread _ rfl
      unfold fileAfter
      dsimp only
      split_ifs with hal
      · cases hw : a.written with
        | true =>
            have hnone : ¬∃ c ∈ a.calls d s.loop.cfg, c.pkg = p := by
              rintro ⟨c, hc, hp⟩
              exact h.no_call c hc hp
            rw [oldEntries_file hw (hok hal),
              withKey_entriesAfter_same (e := e) _ _ fun c hc hp => absurd hp (h.no_call c hc), if_neg hnone, hr]
            exact h.entry
        | false =>
            unfold Allocation.file
            rw [hw, if_neg Bool.false_ne_true, hr]
            exact h.entry
      · exact h.entry
  | _ => exact h.entry

theorem Merged.step (h : s.Merged d) (hs : s.step d i = some s') : s'.Merged d := by
  obtain ⟨hread, -, rfl⟩ := step_eq_some.mp hs
  exact h.effect hread

theorem Kept.step (h : s.Kept d p e) (hok : s.PrintsBack d i) (hs : s.step d i = some s') : s'.Kept d p e := by
  have hmerged := h.merged.step hs
  obtain ⟨hread, -, rfl⟩ := step_eq_some.mp hs
  exact ⟨hmerged, h.file hok hread⟩

/-- An allocation that writes its entries leaves one for each application. -/
theorem After.kept (h : s.After d a cfg) (hw : a.written = true) (hback : a.PrintsBack d cfg) {app : UnknownApp}
    (happ : app ∈ a.unknown cfg) (hb : isBlacklisted app.pkg = false) :
    s.Kept d app.pkg (allocEntry app.pkg (a.unknown cfg) d.big d.mid d.little) := by
  refine ⟨h.merged, ?_⟩
  rw [h.2, oldEntries_file hw hback,
    withKey_entriesAfter_same _ _ fun c hc hp => (mem_calls hc).2.2.trans (by rw [hp]),
    if_pos ⟨_, mem_calls_of_unknown happ hb, rfl⟩]

/-- The allocation of a round is followed by such a state. -/
theorem after_of_step (hs : s.step d (.allocate a) = some s') (hal : s.loop.allocates = true)
    (hcalls : a.calls d s.loop.cfg ≠ []) : s'.After d a s.loop.cfg := by
  obtain ⟨-, -, rfl⟩ := step_eq_some.mp hs
  have hx : autoAllocate d a s.loop.cfg = some (s.loop.cfg.mergeCache d.parse (a.file d s.loop.cfg)) := by
    rw [autoAllocate_eq, if_neg hcalls]
  unfold After fileAfter MainLoop.effect
  dsimp only
  rw [if_pos hal, if_pos hal, hx]
  exact ⟨rfl, rfl⟩

/-- **An application is allocated once.**  After an allocation that has written the entry of an
application, and in every later state of the run, whatever is reloaded, rebuilt or allocated on the
way: the configuration names the application, the file holds that entry and no other of it, and no
scan lists it as unknown. -/
theorem allocated_once (d : Device) (a : Allocation) (cfg : AppConfig) (s t : Stored) (h : s.After d a cfg)
    (hw : a.written = true) (hback : a.PrintsBack d cfg) (app : UnknownApp) (happ : app ∈ a.unknown cfg)
    (hb : isBlacklisted app.pkg = false) (hrun : Runs.Steps (step d) (PrintsBack d) s t) :
    app.pkg ∈ t.loop.cfg.pkgSet ∧
      (oldEntries d.parse t.file).filter (fun e => saveKey e = some app.pkg) =
        [allocEntry app.pkg (a.unknown cfg) d.big d.mid d.little] ∧
      ∀ dir, ∀ other ∈ scanUnknown t.loop.cfg.pkgSet t.loop.cfg.wild dir, other.pkg ≠ app.pkg := by
  have hkept : t.Kept d app.pkg (allocEntry app.pkg (a.unknown cfg) d.big d.mid d.little) :=
    hrun.invariant (fun s i s' hs hok hstep => hs.step hok hstep) (h.kept hw hback happ hb)
  have hmem : app.pkg ∈ t.loop.cfg.pkgSet := hkept.merged.mem_pkgSet hkept.mem_entries.1 hkept.mem_entries.2
  exact ⟨hmem, hkept.entry, fun dir other hother heq => not_mem_of_scanUnknown hother (heq ▸ hmem)⟩

/-- Startup allocates `com.b`. -/
def startAllocation : Allocation := ⟨some [unreadableReading], none, true⟩

/-- The loop is entered after it. -/
def started : Stored :=
  ⟨{ MainLoop.entered true with cfg := oneRule.mergeCache MainLoop.phone.parse (some allocatedFile.1) },
    some allocatedFile.1⟩

/-- The user's file, which does not name `com.b`, is loaded. -/
def startReload : List LoopInput :=
  [.readInotify (some 1) { MainLoop.userReload with cache := some allocatedFile.1 } false,
    .metadata none { MainLoop.unreadable with cache := some allocatedFile.1 }]

/-- The call for `com.b`. -/
def startCall : SaveCall := ⟨"com.b".toList, unreadableThread, "7".toList, "4-6".toList, "0-3".toList⟩

theorem printsBack_startAllocation {cfg : AppConfig} (hcalls : startAllocation.calls MainLoop.phone cfg = [startCall]) :
    startAllocation.PrintsBack MainLoop.phone cfg := by
  intro cs hcs hne
  rw [hcalls, List.prefix_cons_iff] at hcs
  obtain ⟨cs, rfl, hnil⟩ := hcs.resolve_left hne
  obtain rfl := List.prefix_nil.mp hnil
  have hone : entriesAfter (oldEntries MainLoop.phone.parse startAllocation.cache) [startCall] = [startCall.entry] := rfl
  have hfile : MainLoop.phone.parse (MainLoop.phone.stringifyPretty allocatedFile.2) = some allocatedFile.2 := by
    unfold MainLoop.phone
    dsimp only
    exact parseOf_of_mem (by decide +kernel) (List.mem_cons_of_mem _ (List.mem_singleton_self _))
  have hentry : allocatedFile.2 = .array [startCall.entry] := rfl
  unfold JsonBack
  rw [hone, ← hentry]
  exact ⟨hfile, by decide +kernel⟩

theorem printsBack_startReload : ∀ i ∈ startReload, ∀ s : Stored, s.PrintsBack MainLoop.phone i := by
  intro i hi s
  simp only [startReload, List.mem_cons, List.not_mem_nil, or_false] at hi
  rcases hi with rfl | rfl
  · trivial
  · trivial

theorem allocated_once_started :
    ∃ t, Runs.run (step MainLoop.phone) started startReload = some t ∧ t.loop.configChanged = true ∧
      "com.b".toList ∈ t.loop.cfg.pkgSet := by
  obtain ⟨t, ht, hp⟩ := Runs.exists_run (step MainLoop.phone) started startReload (fun t => t.loop.configChanged)
    (by decide +kernel)
  have hafter : started.After MainLoop.phone startAllocation oneRule := ⟨rfl, rfl⟩
  have hback : startAllocation.PrintsBack MainLoop.phone oneRule := printsBack_startAllocation rfl
  let app : UnknownApp :=
    ⟨4711, "com.b".toList, [(4711, "UnityMain".toList), (4712, []), (4713, "HttpPool".toList)]⟩
  have happ : app ∈ startAllocation.unknown oneRule := List.mem_singleton.mpr rfl
  exact ⟨t, ht, hp, (allocated_once MainLoop.phone startAllocation oneRule started t hafter rfl hback _ happ
    (by decide) (Runs.steps_of_run printsBack_startReload ht)).1⟩

end Stored

/-! ### From start-up on -/

/-- What the daemon meets when it starts: the CPUs, the files that `load` and `merge` read, the
listing of `/proc`, and whether the cache file can be written, eBPF is there and the watch is set. -/
structure StartUp where
  topo : CpuTopology
  files : Reload
  dir : Option (List UnknownReading)
  written : Bool
  probed : Bool
  watched : Bool

namespace StartUp

/-- The configuration of `load` with the first `merge`; without one the daemon ends. -/
def config (d : Device) (u : StartUp) : Option AppConfig :=
  (AppConfig.load d.parse u.files.dirs u.topo u.files.data u.files.mtime).map (AppConfig.mergeCache d.parse u.files.cache)

/-- The allocation of start-up. -/
def allocation (u : StartUp) : Allocation := ⟨u.dir, u.files.cache, u.written⟩

/-- The library gives back what the allocation prints. -/
def PrintsBack (d : Device) (u : StartUp) : Prop := ∀ cfg, u.config d = some cfg → u.allocation.PrintsBack d cfg

end StartUp

namespace Stored

/-- `main` up to the loop. -/
def startUp (d : Device) (u : StartUp) : Option Stored :=
  (u.config d).map fun cfg =>
    ⟨{ place := .poll, cfg := (autoAllocate d u.allocation cfg).getD cfg, inotify := u.watched
       bpfOk := cfg.ebpf && u.probed, needFullScan := true, proc := ProcState.new, applied := ∅, cacheScan := 0
       configChanged := false, stale := true }, u.allocation.file d cfg⟩

variable {u : StartUp} {s s' : Stored} {i : LoopInput}

theorem init_startUp (h : startUp d u = some s) : s.loop.Init := by
  obtain ⟨cfg, -, rfl⟩ := Option.map_eq_some_iff.mp h
  exact ⟨rfl, rfl, rfl, rfl, rfl⟩

/-- After `load` and the first `merge`, the configuration names what `merge` finds in the file. -/
theorem merged_config (h : u.config d = some cfg) (loop : MainLoop) (hl : loop.cfg = cfg) :
    Merged d ⟨loop, u.files.cache⟩ := by
  obtain ⟨cfg₀, -, rfl⟩ := Option.map_eq_some_iff.mp h
  exact merged_mergeCache hl

theorem merged_startUp (h : startUp d u = some s) : s.Merged d := by
  obtain ⟨cfg, hcfg, rfl⟩ := Option.map_eq_some_iff.mp h
  cases hx : autoAllocate d u.allocation cfg with
  | none =>
      rw [autoAllocate_eq] at hx
      split_ifs at hx with hcalls
      rw [file_of_no_calls hcalls]
      exact merged_config hcfg _ rfl
  | some cfg' => exact After.merged ⟨hx, rfl⟩

/-- An allocation appends to the entries of the file that is merged. -/
theorem Merged.prefix_file (h : s.Merged d) (hr : a.cache = s.file) (hback : a.PrintsBack d s.loop.cfg) :
    oldEntries d.parse s.file <+: oldEntries d.parse (a.file d s.loop.cfg) := by
  cases hw : a.written with
  | true =>
      rw [oldEntries_file hw hback, hr]
      refine prefix_upserts (List.prefix_refl _) fun x hx e he => ?_
      obtain ⟨c, hc, rfl⟩ := List.mem_map.mp hx
      exact h.key_ne he c hc
  | false =>
      unfold Allocation.file
      rw [hw, if_neg Bool.false_ne_true, hr]

theorem Merged.prefix_step (h : s.Merged d) (hok : s.PrintsBack d i) (hs : s.step d i = some s') :
    oldEntries d.parse s.file <+: oldEntries d.parse s'.file := by
  obtain ⟨hread, -, rfl⟩ := step_eq_some.mp hs
  cases i with
  | allocate a =>
      have hr : a.cache = s.file := hread _ rfl
      unfold fileAfter
      dsimp only
      split_ifs with hal
      · exact h.prefix_file hr (hok hal)
      · exact List.prefix_refl _
  | _ => exact List.prefix_refl _

/-- A run of the loop appends to the entries, and merges what it appends. -/
theorem Merged.prefix_steps {t : Stored} (h : s.Merged d) (hrun : Runs.Steps (Stored.step d) (PrintsBack d) s t) :
    t.Merged d ∧ oldEntries d.parse s.file <+: oldEntries d.parse t.file :=
  hrun.invariant (I := fun x => x.Merged d ∧ oldEntries d.parse s.file <+: oldEntries d.parse x.file)
    (fun _ _ _ hs hok hstep => ⟨hs.1.step hstep, hs.2.trans (hs.1.prefix_step hok hstep)⟩) ⟨h, List.prefix_refl _⟩

theorem prefix_startUp (hback : u.PrintsBack d) (h : startUp d u = some s) :
    oldEntries d.parse u.files.cache <+: oldEntries d.parse s.file := by
  obtain ⟨cfg, hcfg, rfl⟩ := Option.map_eq_some_iff.mp h
  have hmerged : Merged d ⟨{ MainLoop.entered true with cfg := cfg }, u.files.cache⟩ := merged_config hcfg _ rfl
  exact hmerged.prefix_file (a := u.allocation) rfl (hback cfg hcfg)

/-- **The cache file only grows.**  The entries that the daemon finds when it starts, and those of any
state it reaches, are the first entries of every later state's file, in their order.  The packages of
entries are configured, so that no scan lists them as unknown. -/
theorem entries_stay (d : Device) (u : StartUp) (s t : Stored) (hback : u.PrintsBack d)
    (hs : Runs.Reachable (step d) (PrintsBack d) (fun s => startUp d u = some s) s)
    (ht : Runs.Steps (step d) (PrintsBack d) s t) :
    oldEntries d.parse u.files.cache <+: oldEntries d.parse s.file ∧
      oldEntries d.parse s.file <+: oldEntries d.parse t.file ∧
      ∀ e ∈ oldEntries d.parse s.file, ∀ p, saveKey e = some p →
        p ∈ t.loop.cfg.pkgSet ∧ ∀ dir, ∀ app ∈ scanUnknown t.loop.cfg.pkgSet t.loop.cfg.wild dir, app.pkg ≠ p := by
  obtain ⟨s₀, hstart, hrun⟩ := hs
  obtain ⟨hmerged, hbefore⟩ := (merged_startUp hstart).prefix_steps hrun
  obtain ⟨hmerged', hafter⟩ := hmerged.prefix_steps ht
  refine ⟨(prefix_startUp hback hstart).trans hbefore, hafter, fun e he p hk => ?_⟩
  have hmem : p ∈ t.loop.cfg.pkgSet := hmerged'.mem_pkgSet (hafter.mem he) hk
  exact ⟨hmem, fun dir app happ heq => not_mem_of_scanUnknown happ (heq ▸ hmem)⟩

/-- The daemon starts with the user's file while `com.b` runs, and without a cache file. -/
def firstStart : StartUp := ⟨eightCpus, MainLoop.userReload, startAllocation.dir, true, true, true⟩

theorem entries_stay_first_start :
    ∃ s t, startUp MainLoop.phone firstStart = some s ∧ Runs.run (step MainLoop.phone) s startReload = some t ∧
      t.loop.configChanged = true ∧ startCall.entry ∈ oldEntries MainLoop.phone.parse t.file ∧
      "com.b".toList ∈ t.loop.cfg.pkgSet := by
  obtain ⟨s, hs, hrun⟩ := (Option.any_eq_true _ (startUp MainLoop.phone firstStart)).mp
    (by decide +kernel : (startUp MainLoop.phone firstStart).any (fun s =>
      (Runs.run (step MainLoop.phone) s startReload).any fun t => t.loop.configChanged) = true)
  obtain ⟨t, ht, hp⟩ := Runs.exists_run (step MainLoop.phone) s startReload (fun t => t.loop.configChanged) hrun
  have hcalls : ∀ cfg, firstStart.config MainLoop.phone = some cfg →
      startAllocation.calls MainLoop.phone cfg = [startCall] := by
    intro cfg hcfg
    have hmap : (firstStart.config MainLoop.phone).map (startAllocation.calls MainLoop.phone) = some [startCall] := rfl
    rw [hcfg] at hmap
    exact Option.some.inj hmap
  have hback : firstStart.PrintsBack MainLoop.phone := fun cfg hcfg => printsBack_startAllocation (hcalls cfg hcfg)
  have hentry : startCall.entry ∈ oldEntries MainLoop.phone.parse s.file := by
    obtain ⟨cfg, hcfg, rfl⟩ := Option.map_eq_some_iff.mp hs
    have hfile : oldEntries MainLoop.phone.parse (startAllocation.file MainLoop.phone cfg) = [startCall.entry] := by
      rw [oldEntries_file rfl (printsBack_startAllocation (hcalls cfg hcfg)), hcalls cfg hcfg]
      rfl
    exact hfile ▸ List.mem_singleton_self _
  obtain ⟨-, hprefix, hnames⟩ := entries_stay MainLoop.phone firstStart s t hback ⟨s, hs, .refl s⟩
    (Runs.steps_of_run printsBack_startReload ht)
  exact ⟨s, t, hs, ht, hp, hprefix.mem hentry, (hnames _ hentry _ rfl).1⟩

end Stored

end AetherOptExt
