import AetherOptExt.AllocationRoundTrip
import AetherOptExt.NewestEntry

/-! # `cache::save` as a keyed upsert

`save` reads the cache file, drops the entries of the package and appends a new one.  Where the
parser undoes the printer, a sequence of calls is a sequence of upserts on the entries of the
file (`saveAll_eq`), with the string `packages[0]` of an entry as its key.  `merge` knows an
entry by the first string among its packages; that is the same key for entries whose `packages`
begin with a string (`mergeKey_eq_saveKey`), so that it finds what the last call for a package
wrote.

What the JSON library has to do is said for the arrays that the calls at hand write: parsing
gives them back, and a text that parses to an array begins with a bracket. -/

namespace AetherOptExt

open Keyed

namespace cache

/-- The arguments of one call of `save`. -/
structure SaveCall where
  pkg : Str
  all : List UnknownApp
  big : Str
  mid : Str
  little : Str

/-- The entry that the call writes. -/
def SaveCall.entry (c : SaveCall) : JsonValue := allocEntry c.pkg c.all c.big c.mid c.little

/-- The package of an entry for `save`: `packages[0]`. -/
def saveKey (e : JsonValue) : Option Str := (e.get "packages").first.asStr

/-- The cache file after one call. -/
def saveFile (parse : Str → Option JsonValue) (stringifyPretty : JsonValue → Str) (file : Option Str) (c : SaveCall) :
    Option Str :=
  (save parse stringifyPretty file c.pkg c.all c.big c.mid c.little).or file

/-- The cache file after a sequence of calls. -/
def saveAll (parse : Str → Option JsonValue) (stringifyPretty : JsonValue → Str) (file : Option Str)
    (calls : List SaveCall) : Option Str :=
  calls.foldl (saveFile parse stringifyPretty) file

/-- The entries after a sequence of calls, as upserts. -/
def entriesAfter (items : List JsonValue) (calls : List SaveCall) : List JsonValue :=
  upserts saveKey items (calls.map SaveCall.entry)

@[simp] theorem saveKey_entry (c : SaveCall) : saveKey c.entry = some c.pkg := rfl

theorem entriesAfter_snoc (items : List JsonValue) (calls : List SaveCall) (c : SaveCall) :
    entriesAfter items (calls ++ [c]) = upsert saveKey (entriesAfter items calls) c.entry := by
  unfold entriesAfter
  rw [List.map_append, upserts_append]
  rfl

variable {parse : Str → Option JsonValue} {stringifyPretty : JsonValue → Str} {text : Str} {items : List JsonValue}
  {calls : List SaveCall} {c d : SaveCall} {p : Str}

/-! ### One call -/

/-- `save` finds the entries of a file that begins with a bracket. -/
theorem oldEntries_eq (hparse : parse text = some (.array items))
    (hbracket : (text.dropWhile Str.isWhitespace).head? = some '[') : oldEntries parse (some text) = items := by
  have hne : Str.trim text ≠ [] := by
    intro h
    unfold Str.trim at h
    have hall := List.rdropWhile_eq_nil_iff.mp h '[' (List.mem_of_mem_head? hbracket)
    exact absurd hall (by decide)
  unfold oldEntries
  simp only [Option.getD_some, List.isEmpty_eq_false_iff.mpr hne, hbracket, hparse]
  rfl

theorem saveFile_eq (hparse : parse text = some (.array items))
    (hbracket : (text.dropWhile Str.isWhitespace).head? = some '[') (hb : isBlacklisted c.pkg = false) :
    saveFile parse stringifyPretty (some text) c =
      some (stringifyPretty (.array (upsert saveKey items c.entry))) := by
  have hkeep : items.filter (fun e => (e.get "packages").first.asStr != some c.pkg) =
      items.filter (fun e => saveKey e ≠ saveKey c.entry) := by
    refine List.filter_congr fun e _ => ?_
    rw [saveKey_entry, Bool.eq_iff_iff, bne_iff_ne, decide_eq_true_eq]
    rfl
  unfold saveFile save deduped
  rw [hb, if_neg Bool.false_ne_true, oldEntries_eq hparse hbracket, hkeep]
  rfl

/-! ### A sequence of calls -/

section

variable {P : SaveCall → Prop} (hparse : parse text = some (.array items))
  (hP : ∀ c, P c → isBlacklisted c.pkg = false)
  (hround : ∀ cs, cs ≠ [] → (∀ c ∈ cs, P c) →
    parse (stringifyPretty (.array (entriesAfter items cs))) = some (.array (entriesAfter items cs)))
  (hbracket : ∀ t es, parse t = some (.array es) → (t.dropWhile Str.isWhitespace).head? = some '[')

include hparse hP hround hbracket

/-- The file holds the entries after the upserts, and was printed unless there was no call. -/
theorem saveAll_eq (calls : List SaveCall) (hcalls : ∀ c ∈ calls, P c) :
    ∃ file, saveAll parse stringifyPretty (some text) calls = some file ∧
      parse file = some (.array (entriesAfter items calls)) ∧
      (calls ≠ [] → file = stringifyPretty (.array (entriesAfter items calls))) := by
  induction calls using List.reverseRecOn with
  | nil => exact ⟨text, rfl, hparse, fun h => absurd rfl h⟩
  | append_singleton calls c ih =>
      obtain ⟨file, hfile, hitems, -⟩ := ih fun d hd => hcalls d (List.mem_append_left _ hd)
      have hc : P c := hcalls c (List.mem_append_right _ (List.mem_singleton_self c))
      have hstep : saveAll parse stringifyPretty (some text) (calls ++ [c]) =
          some (stringifyPretty (.array (entriesAfter items (calls ++ [c])))) := by
        unfold saveAll at hfile ⊢
        rw [List.foldl_append, hfile, entriesAfter_snoc]
        exact saveFile_eq hitems (hbracket _ _ hitems) (hP c hc)
      exact ⟨_, hstep, hround _ (by simp) hcalls, fun _ => rfl⟩

/-- Further calls continue the sequence. -/
theorem saveAll_continue (hcalls : ∀ c ∈ calls, P c) {file : Str}
    (hfile : saveAll parse stringifyPretty (some text) calls = some file) {more : List SaveCall}
    (hmore : ∀ c ∈ more, P c) (hne : more ≠ []) : saveAll parse stringifyPretty (some file) more =
      some (stringifyPretty (.array (entriesAfter items (calls ++ more)))) := by
  obtain ⟨t, ht, -, hprint⟩ :=
    saveAll_eq hparse hP hround hbracket (calls ++ more) (List.forall_mem_append.mpr ⟨hcalls, hmore⟩)
  have hcat : saveAll parse stringifyPretty (some text) (calls ++ more) =
      saveAll parse stringifyPretty (saveAll parse stringifyPretty (some text) calls) more := List.foldl_append
  rw [hfile] at hcat
  rw [← hcat, ht, hprint (by simp [hne])]

end

/-! ### Reading the file back -/

theorem mergeKey_eq_saveKey {e : JsonValue} (h : ∃ p, saveKey e = some p) : mergeKey e = saveKey e := by
  obtain ⟨p, hp⟩ := h
  unfold saveKey at hp ⊢
  unfold mergeKey entryPackages
  cases hpk : e.get "packages" with
  | array es =>
      rw [hpk] at hp
      cases es with
      | nil => cases hp
      | cons a es =>
          have ha : a.asStr = some p := hp
          rw [JsonValue.members, List.filterMap_cons, ha]
          exact ha.symm
  | null => simp [hpk, JsonValue.first, JsonValue.asStr] at hp
  | boolean b => simp [hpk, JsonValue.first, JsonValue.asStr] at hp
  | number t => simp [hpk, JsonValue.first, JsonValue.asStr] at hp
  | string s => simp [hpk, JsonValue.first, JsonValue.asStr] at hp
  | object fs => simp [hpk, JsonValue.first, JsonValue.asStr] at hp

/-- Entries with a package keep having one. -/
theorem saveKey_entriesAfter (hkeys : ∀ e ∈ items, ∃ p, saveKey e = some p) {e : JsonValue}
    (he : e ∈ entriesAfter items calls) : ∃ p, saveKey e = some p := by
  rcases mem_of_mem_upserts he with he | he
  · exact hkeys e he
  · obtain ⟨c, -, rfl⟩ := List.mem_map.mp he
    exact ⟨c.pkg, rfl⟩

/-- The rules that `merge` makes of the file for a package with one entry. -/
theorem merge_entriesAfter (hkeys : ∀ e ∈ items, ∃ p, saveKey e = some p) {file : Str} {e : JsonValue}
    (hfile : parse file = some (.array (entriesAfter items calls)))
    (hone : withKey saveKey p (entriesAfter items calls) = [e]) :
    (merge parse (some file) KeySet.empty []).2.filter (fun r => r.pkg == p) = cacheRules e := by
  have hsame : withKey mergeKey p (entriesAfter items calls) = withKey saveKey p (entriesAfter items calls) := by
    refine List.filter_congr fun e he => ?_
    rw [mergeKey_eq_saveKey (saveKey_entriesAfter hkeys he)]
  have hbind : (some file).bind parse = some (.array (entriesAfter items calls)) := hfile
  have hfirst := merge_takes_first hbind KeySet.empty [] p
  rw [hsame, hone] at hfirst
  exact hfirst.trans (List.flatMap_singleton cacheRules e)

/-- The entry of the last call for a package. -/
theorem withKey_entriesAfter (items : List JsonValue) {pre post : List SaveCall} (hpost : ∀ d ∈ post, d.pkg ≠ c.pkg) :
    withKey saveKey c.pkg (entriesAfter items (pre ++ c :: post)) = [c.entry] := by
  unfold entriesAfter
  rw [List.map_append, List.map_cons]
  refine withKey_upserts rfl fun e he => ?_
  obtain ⟨d, hd, rfl⟩ := List.mem_map.mp he
  exact fun h => hpost d hd (Option.some.inj h)

/-- **`save` is a keyed upsert of the cache file**, and `merge` reads back what it wrote. -/
theorem save_keyed_upsert (parse : Str → Option JsonValue) (stringifyPretty : JsonValue → Str) (text : Str)
    (items : List JsonValue) (P : SaveCall → Prop) (hparse : parse text = some (.array items))
    (hkeys : ∀ e ∈ items, ∃ p, saveKey e = some p) (hP : ∀ c, P c → isBlacklisted c.pkg = false)
    (hround : ∀ cs, cs ≠ [] → (∀ c ∈ cs, P c) →
      parse (stringifyPretty (.array (entriesAfter items cs))) = some (.array (entriesAfter items cs)))
    (hbracket : ∀ t es, parse t = some (.array es) → (t.dropWhile Str.isWhitespace).head? = some '[')
    (calls : List SaveCall) (hcalls : ∀ c ∈ calls, P c) :
    ∃ file final, saveAll parse stringifyPretty (some text) calls = some file ∧ parse file = some (.array final) ∧
      final.filter (fun e => ∀ c ∈ calls, saveKey e ≠ some c.pkg) =
        items.filter (fun e => ∀ c ∈ calls, saveKey e ≠ some c.pkg) ∧
      (∀ pre c post, calls = pre ++ c :: post → (∀ d ∈ post, d.pkg ≠ c.pkg) →
        final.filter (fun e => saveKey e = some c.pkg) = [c.entry] ∧
          (merge parse (some file) KeySet.empty []).2.filter (fun r => r.pkg == c.pkg) = cacheRules c.entry) ∧
      (∀ c, P c → saveAll parse stringifyPretty (some file) [c, c] = saveAll parse stringifyPretty (some file) [c]) ∧
      ∀ c d, P c → P d → c.pkg ≠ d.pkg → ∃ t u x y,
        saveAll parse stringifyPretty (some file) [c, d] = some t ∧ parse t = some (.array x) ∧
        saveAll parse stringifyPretty (some file) [d, c] = some u ∧ parse u = some (.array y) ∧ x.Perm y := by
  obtain ⟨file, hfile, hfinal, -⟩ := saveAll_eq hparse hP hround hbracket calls hcalls
  have hmore : ∀ more : List SaveCall, (∀ c ∈ more, P c) → more ≠ [] → saveAll parse stringifyPretty (some file) more =
      some (stringifyPretty (.array (entriesAfter items (calls ++ more)))) :=
    fun _ => saveAll_continue hparse hP hround hbracket hcalls hfile
  refine ⟨file, entriesAfter items calls, hfile, hfinal, ?_, ?_, ?_, ?_⟩
  · refine filter_upserts fun a ha e he => ?_
    obtain ⟨c, hc, rfl⟩ := List.mem_map.mp ha
    exact of_decide_eq_true he c hc
  · rintro pre c post rfl hpost
    have hone : withKey saveKey c.pkg (entriesAfter items (pre ++ c :: post)) = [c.entry] :=
      withKey_entriesAfter items hpost
    exact ⟨hone, merge_entriesAfter hkeys hfinal hone⟩
  · intro c hc
    have hsame : entriesAfter items (calls ++ [c, c]) = entriesAfter items (calls ++ [c]) := by
      rw [List.append_cons, entriesAfter_snoc, entriesAfter_snoc]
      exact upsert_idem
    rw [hmore [c, c] (by simpa using hc) (by simp), hmore [c] (by simpa using hc) (by simp), hsame]
  · intro c d hc hd hne
    have htwo : ∀ a b : SaveCall, entriesAfter items (calls ++ [a, b]) =
        upsert saveKey (upsert saveKey (entriesAfter items calls) a.entry) b.entry := by
      intro a b
      rw [List.append_cons, entriesAfter_snoc, entriesAfter_snoc]
    have hpar : ∀ a b : SaveCall, P a → P b → parse (stringifyPretty (.array (entriesAfter items (calls ++ [a, b])))) =
        some (.array (entriesAfter items (calls ++ [a, b]))) := by
      intro a b ha hb
      refine hround _ (by simp) (List.forall_mem_append.mpr ⟨hcalls, ?_⟩)
      simpa using ⟨ha, hb⟩
    refine ⟨_, _, _, _, hmore [c, d] (by simpa using ⟨hc, hd⟩) (by simp), hpar c d hc hd,
      hmore [d, c] (by simpa using ⟨hd, hc⟩) (by simp), hpar d c hd hc, ?_⟩
    rw [htwo, htwo]
    refine upsert_comm fun h => hne ?_
    exact Option.some.inj h

/-! ### An example -/

/-- A call for an application without heavy threads. -/
def plainCall (pkg little : String) : SaveCall := ⟨pkg.toList, [], ['7'], [], little.toList⟩

/-- The text of an entry that such a call writes. -/
def printEntry (e : JsonValue) : Str :=
  "  \x7b\n    \"friendly\": \"".toList ++ (e.get "friendly").asStr.getD [] ++
    "\",\n    \"packages\": [\n      \"".toList ++ (saveKey e).getD [] ++
    "\"\n    ],\n    \"cpuset\": \x7b\n      \"other\": \"".toList ++ entryOther e ++ "\"\n    \x7d\n  \x7d".toList

/-- The text of a file of such entries. -/
def printEntries (v : JsonValue) : Str :=
  "[\n".toList ++ ",\n".toList.intercalate (v.members.map printEntry) ++ "\n]".toList

/-- Two entries for `com.a` around one for `com.c`. -/
def oldFile : List JsonValue :=
  [(plainCall "com.a" "0").entry, (plainCall "com.c" "0-3").entry, (plainCall "com.a" "1").entry]

/-- What calls for `com.a` and `com.b` make of it. -/
def writtenFiles : List (List JsonValue) :=
  [[(plainCall "com.c" "0-3").entry, (plainCall "com.a" "0-3").entry],
    oldFile ++ [(plainCall "com.b" "0-2").entry],
    [(plainCall "com.c" "0-3").entry, (plainCall "com.a" "0-3").entry, (plainCall "com.b" "0-2").entry],
    [(plainCall "com.c" "0-3").entry, (plainCall "com.b" "0-2").entry, (plainCall "com.a" "0-3").entry]]

/-- The JSON parser on the texts of these files. -/
def parseWritten : Str → Option JsonValue :=
  parseOf ((oldFile :: writtenFiles).map (fun es => (printEntries (.array es), .array es)))

/-- The two calls. -/
def TwoCalls (c : SaveCall) : Prop := c = plainCall "com.a" "0-3" ∨ c = plainCall "com.b" "0-2"

theorem entriesAfter_written : ∀ cs : List SaveCall, (∀ c ∈ cs, TwoCalls c) →
    (cs = [] ∧ entriesAfter oldFile cs = oldFile) ∨ (cs ≠ [] ∧ entriesAfter oldFile cs ∈ writtenFiles) := by
  intro cs
  induction cs using List.reverseRecOn with
  | nil => exact fun _ => .inl ⟨rfl, rfl⟩
  | append_singleton cs c ih =>
      intro h
      refine .inr ⟨by simp, ?_⟩
      rw [entriesAfter_snoc]
      have hc := h c (List.mem_append_right _ (List.mem_singleton_self c))
      have ih := ih fun d hd => h d (List.mem_append_left _ hd)
      generalize entriesAfter oldFile cs = es at ih
      have hes : es = oldFile ∨ es ∈ writtenFiles := ih.imp And.right And.right
      unfold writtenFiles at hes ⊢
      simp only [List.mem_cons, List.not_mem_nil, or_false] at hes ⊢
      rcases hc with rfl | rfl
      · rcases hes with rfl | rfl | rfl | rfl | rfl
        · exact .inl rfl
        · exact .inl rfl
        · exact .inr (.inr (.inr rfl))
        · exact .inr (.inr (.inr rfl))
        · exact .inr (.inr (.inr rfl))
      · rcases hes with rfl | rfl | rfl | rfl | rfl
        · exact .inr (.inl rfl)
        · exact .inr (.inr (.inl rfl))
        · exact .inr (.inl rfl)
        · exact .inr (.inr (.inl rfl))
        · exact .inr (.inr (.inl rfl))

theorem parseOf_of_mem {t : Str} {v : JsonValue} : ∀ {files : List (Str × JsonValue)},
    (files.map Prod.fst).Nodup → (t, v) ∈ files → parseOf files t = some v
  | f :: files, hn, h => by
      obtain ⟨hf, hn⟩ := List.nodup_cons.mp hn
      unfold parseOf
      rcases List.mem_cons.mp h with rfl | h
      · exact List.lookup_cons_self
      · have hne : (t == f.1) = false := by
          rw [beq_eq_false_iff_ne]
          rintro rfl
          exact hf (List.mem_map.mpr ⟨_, h, rfl⟩)
        rw [List.lookup_cons, hne]
        exact parseOf_of_mem hn h

theorem parseWritten_print {es : List JsonValue} (h : es ∈ oldFile :: writtenFiles) :
    parseWritten (printEntries (.array es)) = some (.array es) :=
  parseOf_of_mem (by decide +kernel) (List.mem_map_of_mem h)

theorem parseWritten_bracket {t : Str} {v : JsonValue} (h : parseWritten t = some v) :
    (t.dropWhile Str.isWhitespace).head? = some '[' := by
  unfold parseWritten parseOf at h
  obtain ⟨l₁, l₂, hl, -⟩ := List.lookup_eq_some_iff.mp h
  have hmem : (t, v) ∈ (oldFile :: writtenFiles).map (fun es => (printEntries (.array es), JsonValue.array es)) := by
    rw [hl]
    exact List.mem_append_right _ List.mem_cons_self
  obtain ⟨es, -, he⟩ := List.mem_map.mp hmem
  obtain rfl := (Prod.mk.inj he).1
  rfl

theorem save_keyed_upsert_two :
    ∃ file, saveAll parseWritten printEntries (some (printEntries (.array oldFile)))
        [plainCall "com.b" "0-2", plainCall "com.a" "0-3"] = some file ∧
      (merge parseWritten (some file) KeySet.empty []).2.filter (fun r => r.pkg == "com.a".toList) =
        cacheRules (plainCall "com.a" "0-3").entry := by
  obtain ⟨file, final, hfile, -, -, hlast, -⟩ := save_keyed_upsert parseWritten printEntries
    (printEntries (.array oldFile)) oldFile TwoCalls (parseWritten_print List.mem_cons_self)
    (fun e he => by
      simp only [oldFile, List.mem_cons, List.not_mem_nil, or_false] at he
      rcases he with rfl | rfl | rfl
      · exact ⟨_, rfl⟩
      · exact ⟨_, rfl⟩
      · exact ⟨_, rfl⟩)
    (fun c hc => by rcases hc with rfl | rfl <;> decide)
    (fun cs hne hcs => by
      have hmem := (entriesAfter_written cs hcs).resolve_left fun h => hne h.1
      exact parseWritten_print (List.mem_cons_of_mem _ hmem.2))
    (fun t es h => parseWritten_bracket h) [plainCall "com.b" "0-2", plainCall "com.a" "0-3"]
    (fun c hc => by
      simp only [List.mem_cons, List.not_mem_nil, or_false] at hc
      exact hc.symm)
  have hmerge := hlast [plainCall "com.b" "0-2"] (plainCall "com.a" "0-3") [] rfl (fun d hd => absurd hd List.not_mem_nil)
  exact ⟨file, hfile, hmerge.2⟩

end cache

end AetherOptExt
