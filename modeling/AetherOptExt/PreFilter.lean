import AetherOptExt.Daemon

/-! # The kernel's pre-filter against the user side's matcher

Two matchers decide whether a 16-byte name belongs to a configured package.  The kernel slides
an 8-byte window over it and looks for a whitelist key; user space cuts the name at its first
NUL and compares it with whole package names.  When the whitelist holds the keys of the
configured packages, the kernel accepts every name that user space resolves
(`preFilter_complete`): a name that is a package, or begins one, shows the package's prefix
key in window 0; a fragment of at least 15 bytes that ends a package shows the suffix key in
window 7 or 8. -/

namespace AetherOptExt

/-- The field holds the text: its bytes, none of them NUL, padded with NULs. -/
def Comm.Holds (c : Comm) (text : Str) : Prop :=
  c.bytes = Str.utf8 text ++ List.replicate (16 - Str.byteLen text) 0 ∧ 0 ∉ Str.utf8 text

/-- The whitelist holds exactly the keys of the configured packages. -/
def Whitelists (target : TargetMap) (pkgs : KeySet Str) : Prop := ∀ k, k ∈ target ↔ k ∈ commKeysBuild pkgs

theorem Comm.Holds.byteLen_le {c : Comm} {text : Str} (h : c.Holds text) : Str.byteLen text ≤ 16 := by
  have hlen := congrArg List.length h.1
  rw [c.size, List.length_append, List.length_replicate] at hlen
  unfold Str.byteLen at hlen ⊢
  omega

/-- A held text that is trimmed is what `comm_str` reads. -/
theorem commStr_of_holds {c : Comm} {text : Str} (h : c.Holds text) (ht : Str.Trimmed text) :
    commStr c = text := by
  have hcut : c.bytes.takeWhile (· != 0) = Str.utf8 text := by
    rw [h.1, List.takeWhile_append_of_pos]
    · cases 16 - Str.byteLen text with
      | zero => simp
      | succ n => simp [List.replicate_succ]
    · intro b hb
      rw [bne_iff_ne]
      exact fun h0 => h.2 (h0 ▸ hb)
  unfold commStr
  rw [hcut, Str.fromUtf8_eq_some_iff.mpr rfl]
  exact ht

/-! ### Windows and keys -/

/-- The first window of a field that begins like the package is its prefix key. -/
theorem window_zero {c : Comm} {text pkg : Str} (h : c.Holds text)
    (hp : text = pkg ∨ (8 ≤ Str.byteLen text ∧ text <+: pkg)) : c.window 0 = prefixKey (Str.utf8 pkg) := by
  have hle := h.byteLen_le
  unfold Str.byteLen at hle hp
  apply Subtype.ext
  show (c.bytes.drop 0).take 8 = (Str.utf8 pkg).take 8 ++ List.replicate (8 - (Str.utf8 pkg).length) 0
  rw [List.drop_zero, h.1, List.take_append, List.take_replicate]
  unfold Str.byteLen
  rcases hp with rfl | ⟨h8, hpre⟩
  · congr 2
    omega
  · obtain ⟨rest, hrest⟩ := Str.utf8_prefix hpre
    have hlen := congrArg List.length hrest
    rw [List.length_append] at hlen
    have h1 : min (8 - (Str.utf8 text).length) (16 - (Str.utf8 text).length) = 0 := by omega
    have h2 : 8 - (Str.utf8 pkg).length = 0 := by omega
    rw [h1, h2, ← hrest, List.take_append_of_le_length h8]

/-- The window over the last 8 bytes of a field that ends like the package is its suffix key. -/
theorem window_last {c : Comm} {text pkg : Str} (h : c.Holds text) (h15 : 15 ≤ Str.byteLen text)
    (hs : text <:+ pkg) : ∃ (pos : Fin 9) (h8 : 8 < (Str.utf8 pkg).length), c.window pos = suffixKey (Str.utf8 pkg) h8 := by
  have hle := h.byteLen_le
  unfold Str.byteLen at hle h15
  obtain ⟨rest, hrest⟩ := Str.utf8_suffix hs
  have hlen := congrArg List.length hrest
  rw [List.length_append] at hlen
  refine ⟨⟨(Str.utf8 text).length - 8, by omega⟩, by omega, Subtype.ext ?_⟩
  show (c.bytes.drop ((Str.utf8 text).length - 8)).take 8 = (Str.utf8 pkg).drop ((Str.utf8 pkg).length - 8)
  have hcut : (Str.utf8 text).length - ((Str.utf8 text).length - 8) = 8 := by omega
  have hdrop : (Str.utf8 pkg).length - 8 = rest.length + ((Str.utf8 text).length - 8) := by omega
  rw [h.1, List.drop_append_of_le_length (by omega), hdrop, ← hrest, List.drop_length_add_append]
  apply List.take_left'
  rw [List.length_drop, hcut]

theorem whitelistMatched_iff {target : TargetMap} {c : Comm} :
    whitelistMatched target c = true ↔ ∃ pos : Fin 9, c.window pos ∈ target := by
  unfold whitelistMatched
  simp only [List.any_eq_true, List.mem_finRange, true_and, AList.lookup_isSome]

/-- The kernel accepts a name that stands for a configured package. -/
theorem whitelistMatched_of_matches {target : TargetMap} {pkgs : KeySet Str} (ht : Whitelists target pkgs)
    {c : Comm} {text pkg : Str} (h : c.Holds text) (hp : pkg ∈ pkgs) (hne : pkg ≠ [])
    (hm : CommMatches text pkg) : whitelistMatched target c = true := by
  rw [whitelistMatched_iff]
  have hprefix : (text = pkg ∨ (8 ≤ Str.byteLen text ∧ text <+: pkg)) → ∃ pos : Fin 9, c.window pos ∈ target := by
    intro hb
    refine ⟨0, (ht _).mpr (mem_commKeysBuild.mpr ⟨pkg, hp, ?_⟩)⟩
    rw [window_zero h hb]
    exact prefixKey_mem_pkgKeys hne
  rcases hm with rfl | ⟨h15, hpre | hsuf⟩
  · exact hprefix (Or.inl rfl)
  · exact hprefix (Or.inr ⟨by omega, hpre⟩)
  · obtain ⟨pos, h8, hw⟩ := window_last h h15 hsuf
    refine ⟨pos, (ht _).mpr (mem_commKeysBuild.mpr ⟨pkg, hp, ?_⟩)⟩
    rw [hw]
    exact suffixKey_mem_pkgKeys h8

/-! ### Fragments of a configured name -/

/-- The texts a thread name can keep of a package name. -/
def Fragment (text pkg : Str) : Prop :=
  (text = pkg ∧ Str.byteLen pkg ≤ 15) ∨ text = pkg.take 15 ∨ text = pkg.drop (pkg.length - 15)

theorem Fragment.mem {text pkg : Str} (h : Fragment text pkg) : ∀ c ∈ text, c ∈ pkg := by
  intro c hc
  rcases h with ⟨rfl, -⟩ | rfl | rfl
  · exact hc
  · exact List.mem_of_mem_take hc
  · exact List.mem_of_mem_drop hc

/-- A fragment of an ASCII name stands for it. -/
theorem Fragment.matches {text pkg : Str} (h : Fragment text pkg) (ha : Str.IsAscii pkg) :
    CommMatches text pkg := by
  have hlen : Str.byteLen text = text.length := Str.byteLen_ascii (ha.of_sublist h.mem)
  unfold CommMatches
  rw [hlen]
  rcases Nat.lt_or_ge pkg.length 15 with hlt | hge
  · left
    rcases h with ⟨rfl, -⟩ | rfl | rfl
    · rfl
    · exact List.take_of_length_le (by omega)
    · rw [Nat.sub_eq_zero_of_le (by omega), List.drop_zero]
  · rcases h with ⟨rfl, -⟩ | rfl | rfl
    · exact Or.inl rfl
    · refine Or.inr ⟨?_, Or.inl (List.take_prefix 15 pkg)⟩
      rw [List.length_take]
      omega
    · refine Or.inr ⟨?_, Or.inr (List.drop_suffix _ pkg)⟩
      rw [List.length_drop]
      omega

/-- **The pre-filter hides nothing.**  With the whitelist of the configured, non-empty names,
the kernel accepts every trimmed name that user space resolves; and of each ASCII name without
white space, every fragment is accepted and resolves to a configured package that it equals,
begins or ends. -/
theorem preFilter_complete (cfg : AppConfig) (target : TargetMap) (ht : Whitelists target cfg.pkgSet)
    (hne : ∀ p ∈ cfg.pkgSet, p ≠ []) :
    (∀ (comm : Comm) (text : Str), comm.Holds text → Str.Trimmed text →
      (commToPkg (commStr comm) cfg).isSome = true → whitelistMatched target comm = true) ∧
    (∀ p ∈ cfg.pkgSet, Str.IsAscii p → (∀ c ∈ p, Str.isWhitespace c = false) →
      ∀ (comm : Comm) (text : Str), comm.Holds text → Fragment text p →
        whitelistMatched target comm = true ∧
        ∃ q, commToPkg (commStr comm) cfg = some q ∧ q ∈ cfg.pkgSet ∧ (q = text ∨ text <+: q ∨ text <:+ q)) := by
  constructor
  · intro comm text hh htr hsome
    rw [commStr_of_holds hh htr] at hsome
    obtain ⟨pkg, hp, hm⟩ := commToPkg_isSome.mp hsome
    exact whitelistMatched_of_matches ht hh hp (hne pkg hp) hm
  · intro p hp hascii hws comm text hh hf
    have htr : Str.Trimmed text := Str.trim_of_forall fun c hc => hws c (hf.mem c hc)
    have hm := hf.matches hascii
    refine ⟨whitelistMatched_of_matches ht hh hp (hne p hp) hm, ?_⟩
    rw [commStr_of_holds hh htr]
    obtain ⟨q, hq⟩ := Option.isSome_iff_exists.mp (commToPkg_isSome.mpr ⟨p, hp, hm⟩)
    obtain ⟨hmem, hqm⟩ := commToPkg_matches hq
    refine ⟨q, hq, hmem, ?_⟩
    rcases hqm with rfl | ⟨-, hpre | hsuf⟩
    · exact Or.inl rfl
    · exact Or.inr (Or.inl hpre)
    · exact Or.inr (Or.inr hsuf)

/-- A configuration with one package name and no rule. -/
def oneName (pkg : Str) : AppConfig :=
  { rules := [], pkgSet := ⟨[pkg], List.nodup_singleton pkg⟩, wild := [], mtime := 0, ebpf := true
    topo := ⟨CpuSet.new, [], false⟩ }

/-- The name of a 20-byte package, cut to its last 15 bytes. -/
theorem preFilter_complete_suffix :
    let cfg := oneName "com.tencent.tmgp.pub".toList
    let comm : Comm := ⟨Str.utf8 "encent.tmgp.pub".toList ++ [0], by decide⟩
    whitelistMatched (commMapInit ∅ cfg.pkgSet 8192).1 comm = true ∧
      ∃ q, commToPkg (commStr comm) cfg = some q ∧ q ∈ cfg.pkgSet ∧
        (q = "encent.tmgp.pub".toList ∨ "encent.tmgp.pub".toList <+: q ∨ "encent.tmgp.pub".toList <:+ q) :=
  (preFilter_complete (oneName "com.tencent.tmgp.pub".toList) _ (fun _ => mem_commMapInit (by decide))
    (by decide)).2 "com.tencent.tmgp.pub".toList (by decide) (by decide)
    (fun c hc => Bool.eq_false_iff.mpr (List.any_eq_false.mp (by decide) c hc)) _ _ ⟨rfl, by decide⟩
    (Or.inr (Or.inr (by decide)))

end AetherOptExt
