import AetherOptExt.CacheMerge
import AetherOptExt.Lib.Keyed

/-! # Which entry of a package `merge` takes

A cache file can hold several entries with the same first package: older versions wrote such
files, and so do hands.  `cache.save` appends, so the last one is the newest, and the comment in
`cache::merge` says that the last one is kept.  The loop skips an entry whose package was seen:
it keeps the first (`merge_takes_first`).  The rules are those of the last entry exactly when
the first and the last say the same (`merge_newest_iff`). -/

namespace AetherOptExt

open Keyed

variable {parse : Str → Option JsonValue} {data : Option Str} {entries : List JsonValue} {p : Str}

/-- The package of an entry for `merge`: the first string among its packages. -/
def mergeKey (e : JsonValue) : Option Str := (entryPackages e).head?

/-! ### The rules of one package -/

/-- An entry's rules are for its package. -/
theorem pkg_of_mem_cacheRules {e : JsonValue} {r : Rule} (h : r ∈ cacheRules e) : mergeKey e = some r.pkg := by
  unfold cacheRules at h
  unfold mergeKey
  cases hp : entryPackages e with
  | nil => simp [hp] at h
  | cons first rest =>
      rw [hp] at h
      rcases List.mem_cons.mp h with rfl | h
      · rfl
      · obtain ⟨cn, -, rfl⟩ := List.mem_map.mp h
        rfl

theorem filter_cacheRules (e : JsonValue) :
    (cacheRules e).filter (fun r => r.pkg == p) = if mergeKey e = some p then cacheRules e else [] := by
  split_ifs with h
  · rw [List.filter_eq_self]
    intro r hr
    rw [pkg_of_mem_cacheRules hr] at h
    exact beq_iff_eq.mpr (Option.some.inj h)
  · rw [List.filter_eq_nil_iff]
    intro r hr hrp
    rw [pkg_of_mem_cacheRules hr, beq_iff_eq.mp hrp] at h
    exact h rfl

/-- The rules of a package are those of the entries of the package. -/
theorem filter_flatMap_cacheRules : ∀ l : List JsonValue,
    (l.flatMap cacheRules).filter (fun r => r.pkg == p) = (withKey mergeKey p l).flatMap cacheRules
  | [] => rfl
  | e :: l => by
      rw [List.flatMap_cons, List.filter_append, filter_cacheRules, filter_flatMap_cacheRules l]
      split_ifs with h
      · rw [withKey_cons_same h, List.flatMap_cons]
      · rw [withKey_cons_ne h, List.nil_append]

/-- Entries of one package have the same rules when they have the same texts. -/
theorem cacheRules_eq_iff {a b : JsonValue} (ha : mergeKey a = some p) (hb : mergeKey b = some p) :
    cacheRules a = cacheRules b ↔ entryOther a = entryOther b ∧ entryComm a = entryComm b := by
  unfold mergeKey at ha hb
  obtain ⟨ra, hpa⟩ := List.head?_eq_some_iff.mp ha
  obtain ⟨rb, hpb⟩ := List.head?_eq_some_iff.mp hb
  have hinj : Function.Injective (commRule p) := by
    intro x y h
    exact Prod.ext (congrArg Rule.cpus h) (congrArg Rule.thread h)
  unfold cacheRules
  rw [hpa, hpb]
  dsimp only
  rw [List.cons.injEq, (List.map_injective_iff.mpr hinj).eq_iff]
  exact and_congr_left fun _ => ⟨congrArg Rule.cpus, fun h => by rw [h]⟩

/-! ### The entries that are taken -/

/-- Of each package that was not seen the first entry is taken. -/
theorem withKey_mergedEntries : ∀ (entries : List JsonValue) (seen : KeySet Str),
    withKey mergeKey p (mergedEntries entries seen) =
      if p ∈ seen then [] else (withKey mergeKey p entries).head?.toList
  | [], seen => by simp [mergedEntries, withKey]
  | e :: entries, seen => by
      unfold mergedEntries
      cases hp : entryPackages e with
      | nil =>
          have hkey : mergeKey e ≠ some p := by
            unfold mergeKey
            simp [hp]
          rw [withKey_cons_ne hkey]
          exact withKey_mergedEntries entries seen
      | cons first rest =>
          have hkey : mergeKey e = some first := by
            unfold mergeKey
            rw [hp]
            rfl
          dsimp only
          by_cases hs : first ∈ seen
          · rw [if_pos hs, withKey_mergedEntries entries seen]
            split_ifs with hps
            · rfl
            · have hne : mergeKey e ≠ some p := by
                rw [hkey]
                rintro h
                exact hps (Option.some.inj h ▸ hs)
              rw [withKey_cons_ne hne]
          · rw [if_neg hs]
            by_cases hfp : first = p
            · rw [hfp] at hkey hs
              rw [hfp, withKey_cons_same hkey, withKey_cons_same hkey, withKey_mergedEntries entries,
                if_pos (KeySet.mem_insert.mpr (.inl rfl)), if_neg hs]
              rfl
            · have hne : mergeKey e ≠ some p := by
                rw [hkey]
                exact fun h => hfp (Option.some.inj h)
              have hmem : p ∈ seen.insert first ↔ p ∈ seen := by
                rw [KeySet.mem_insert]
                exact or_iff_right (Ne.symm hfp)
              rw [withKey_cons_ne hne, withKey_cons_ne hne, withKey_mergedEntries entries]
              simp only [hmem]

/-- The rules that `merge` appends for a package. -/
def appendedRules (parse : Str → Option JsonValue) (data : Option Str) (set : KeySet Str) (rules : List Rule)
    (p : Str) : List Rule :=
  ((cache.merge parse data set rules).2.drop rules.length).filter (fun r => r.pkg == p)

/-- **`merge` takes the first entry of a package.** -/
theorem merge_takes_first (hfile : data.bind parse = some (.array entries)) (set : KeySet Str) (rules : List Rule)
    (p : Str) : appendedRules parse data set rules p = (withKey mergeKey p entries).head?.toList.flatMap cacheRules := by
  have hmerged : mergedRules parse data = (mergedEntries entries KeySet.empty).flatMap cacheRules := by
    unfold mergedRules cacheEntries
    rw [hfile]
    rfl
  unfold appendedRules
  rw [merge_rules, List.drop_left, hmerged, filter_flatMap_cacheRules, withKey_mergedEntries,
    if_neg (KeySet.mem_empty p)]

/-- The first and the last entry of the package have the same `other` and the same `comm` pairs. -/
def EndsAgree (entries : List JsonValue) (p : Str) : Prop :=
  ∀ a ∈ (withKey mergeKey p entries).head?, ∀ b ∈ (withKey mergeKey p entries).getLast?,
    entryOther a = entryOther b ∧ entryComm a = entryComm b

/-- **When `merge` appends the rules of the newest entry of a package.** -/
theorem merge_newest_iff (parse : Str → Option JsonValue) (data : Option Str) (entries : List JsonValue)
    (hfile : data.bind parse = some (.array entries)) (set : KeySet Str) (rules : List Rule) (p : Str) :
    appendedRules parse data set rules p = (withKey mergeKey p entries).getLast?.toList.flatMap cacheRules ↔
      EndsAgree entries p := by
  rw [merge_takes_first hfile]
  unfold EndsAgree
  cases hw : withKey mergeKey p entries with
  | nil => simp
  | cons a es =>
      have hkey : ∀ e ∈ a :: es, mergeKey e = some p := fun e he => (mem_withKey.mp (hw ▸ he)).2
      have hne : a :: es ≠ [] := List.cons_ne_nil a es
      have hlast : (a :: es).getLast hne ∈ a :: es := List.getLast_mem hne
      rw [List.head?_cons, List.getLast?_eq_getLast_of_ne_nil hne]
      simp only [Option.toList_some, List.flatMap_singleton, Option.mem_some_iff, forall_eq']
      exact cacheRules_eq_iff (hkey a List.mem_cons_self) (hkey _ hlast)

/-- A file with two entries for `com.a`. -/
def twoEntries (older newer : Str) : Str × JsonValue :=
  ("[\x7b\"packages\":[\"com.a\"],\"cpuset\":\x7b\"other\":\"".toList ++ older ++
      "\"\x7d\x7d,\x7b\"packages\":[\"com.a\"],\"cpuset\":\x7b\"other\":\"".toList ++ newer ++ "\"\x7d\x7d]".toList,
    .array [plainEntry ["com.a".toList] older, plainEntry ["com.a".toList] newer])

theorem parseOf_twoEntries (older newer : Str) :
    (some (twoEntries older newer).1).bind (parseOf [twoEntries older newer]) =
      some (.array [plainEntry ["com.a".toList] older, plainEntry ["com.a".toList] newer]) :=
  parseOf_self (twoEntries older newer)

/-- The older CPUs are used. -/
theorem older_entry_taken :
    let file := twoEntries "0-3".toList "4-7".toList
    appendedRules (parseOf [file]) (some file.1) KeySet.empty [] "com.a".toList =
        [{ pkg := "com.a".toList, thread := [], cpus := "0-3".toList, prio := 200, cpusetDir := [] }] ∧
      (withKey mergeKey "com.a".toList (JsonValue.members file.2)).getLast?.toList.flatMap cacheRules =
        [{ pkg := "com.a".toList, thread := [], cpus := "4-7".toList, prio := 200, cpusetDir := [] }] := by
  refine ⟨?_, by decide⟩
  rw [merge_takes_first (parseOf_twoEntries _ _)]
  decide

theorem merge_newest_iff_same :
    let file := twoEntries "0-3".toList "0-3".toList
    appendedRules (parseOf [file]) (some file.1) KeySet.empty [] "com.a".toList =
      (withKey mergeKey "com.a".toList (JsonValue.members file.2)).getLast?.toList.flatMap cacheRules := by
  refine (merge_newest_iff _ _ _ (parseOf_twoEntries _ _) KeySet.empty [] "com.a".toList).mpr ?_
  intro a ha b hb
  obtain rfl := Option.some.inj ha
  obtain rfl := Option.some.inj hb
  exact ⟨rfl, rfl⟩

end AetherOptExt
