import Mathlib.Data.List.Sort
import AetherOptExt.Config
import AetherOptExt.Kernel

/-! # The user side of the BPF maps (`bpf.rs`)

`commKeysBuild` makes the whitelist keys of a set of package names: the zero-padded first 8
bytes of each name and, for names of more than 8 bytes, the last 8.  `commMapInit` writes them
to `TARGET_COMM_MAP`.  `commToPkg` goes back from a thread name to a configured package.  The
last part is the access to `APPLIED_MAP`. -/

namespace AetherOptExt

/-! ### Whitelist keys -/

/-- The first 8 bytes, padded with zeros. -/
def prefixKey (bytes : List UInt8) : CommKey :=
  ⟨bytes.take 8 ++ List.replicate (8 - bytes.length) 0, by simp; omega⟩

/-- The last 8 bytes of a name that has more than 8. -/
def suffixKey (bytes : List UInt8) (h : 8 < bytes.length) : CommKey :=
  ⟨bytes.drop (bytes.length - 8), by simp; omega⟩

/-- The keys of one package name. -/
def pkgKeys (pkg : Str) : List CommKey :=
  let bytes := Str.utf8 pkg
  if bytes.isEmpty then []
  else if h : 8 < bytes.length then [prefixKey bytes, suffixKey bytes h]
  else [prefixKey bytes]

/-- `Vec::dedup`: drop repetitions that stand next to each other. -/
def vecDedup {α : Type*} [DecidableEq α] : List α → List α
  | [] => []
  | [a] => [a]
  | a :: b :: l => if a = b then vecDedup (b :: l) else a :: vecDedup (b :: l)

/-- `comm_keys_build`. -/
def commKeysBuild (pkgs : KeySet Str) : List CommKey :=
  vecDedup ((pkgs.order.flatMap pkgKeys).insertionSort (fun a b => a.1 ≤ b.1))

theorem mem_vecDedup {α : Type*} [DecidableEq α] {x : α} : ∀ {l : List α}, x ∈ vecDedup l ↔ x ∈ l
  | [] => Iff.rfl
  | [a] => Iff.rfl
  | a :: b :: l => by
      unfold vecDedup
      split_ifs with h
      · rw [mem_vecDedup, h]
        simp
      · rw [List.mem_cons, mem_vecDedup, List.mem_cons, List.mem_cons, List.mem_cons]

theorem mem_commKeysBuild {pkgs : KeySet Str} {k : CommKey} :
    k ∈ commKeysBuild pkgs ↔ ∃ pkg ∈ pkgs, k ∈ pkgKeys pkg := by
  unfold commKeysBuild
  rw [mem_vecDedup, List.mem_insertionSort, List.mem_flatMap]
  rfl

theorem prefixKey_mem_pkgKeys {pkg : Str} (h : pkg ≠ []) : prefixKey (Str.utf8 pkg) ∈ pkgKeys pkg := by
  have hne : (Str.utf8 pkg).isEmpty = false := by
    rw [Bool.eq_false_iff, ne_eq, List.isEmpty_iff_length_eq_zero]
    exact fun h0 => h (Str.byteLen_eq_zero.mp h0)
  unfold pkgKeys
  simp only [hne, Bool.false_eq_true, if_false]
  split_ifs
  · exact List.mem_cons_self
  · exact List.mem_cons_self

theorem suffixKey_mem_pkgKeys {pkg : Str} (h : 8 < (Str.utf8 pkg).length) :
    suffixKey (Str.utf8 pkg) h ∈ pkgKeys pkg := by
  have hne : (Str.utf8 pkg).isEmpty = false := by
    rw [Bool.eq_false_iff, ne_eq, List.isEmpty_iff_length_eq_zero]
    omega
  unfold pkgKeys
  simp [hne, h]

/-- `comm_map_init`: replace the whitelist by the keys of the package set; the flag says that
they do not fit, and then the map stays as it was. -/
def commMapInit (target : TargetMap) (pkgs : KeySet Str) (capacity : ℕ) : TargetMap × Bool :=
  let entries := commKeysBuild pkgs
  if capacity < entries.length then (target, true)
  else (entries.foldl (fun m k => AList.insert k 1 m) (target.eraseAll target.keys), false)

theorem mem_foldl_insertKey {k : CommKey} : ∀ {ks : List CommKey} {m : TargetMap},
    k ∈ ks.foldl (fun m k => AList.insert k 1 m) m ↔ k ∈ ks ∨ k ∈ m
  | [], m => by simp
  | a :: ks, m => by
      rw [List.foldl_cons, mem_foldl_insertKey, KeyMap.mem_insert, List.mem_cons]
      tauto

/-- When the keys fit, the whitelist holds exactly them. -/
theorem mem_commMapInit {target : TargetMap} {pkgs : KeySet Str} {capacity : ℕ}
    (h : (commKeysBuild pkgs).length ≤ capacity) {k : CommKey} :
    k ∈ (commMapInit target pkgs capacity).1 ↔ k ∈ commKeysBuild pkgs := by
  unfold commMapInit
  simp only [Nat.not_lt.mpr h, if_false, KeyMap.eraseAll_keys]
  rw [mem_foldl_insertKey]
  simp

/-! ### From a thread name to a package -/

/-- `comm_to_pkg`: the name itself, else a package that begins with it, else one that ends
with it; a fragment has at least 15 bytes. -/
def commToPkg (comm : Str) (cfg : AppConfig) : Option Str :=
  if comm ∈ cfg.pkgSet then some comm
  else if 15 ≤ Str.byteLen comm then
    match cfg.pkgSet.order.find? (fun pkg => comm.isPrefixOf pkg) with
    | some pkg => some pkg
    | none => cfg.pkgSet.order.find? (fun pkg => comm.isSuffixOf pkg)
  else none

/-- The name stands for the package: it is the package, or a long fragment of it. -/
def CommMatches (comm pkg : Str) : Prop :=
  comm = pkg ∨ (15 ≤ Str.byteLen comm ∧ (comm <+: pkg ∨ comm <:+ pkg))

theorem commToPkg_matches {comm p : Str} {cfg : AppConfig} (h : commToPkg comm cfg = some p) :
    p ∈ cfg.pkgSet ∧ CommMatches comm p := by
  unfold commToPkg at h
  split_ifs at h with h1 h2
  · obtain rfl := Option.some.inj h
    exact ⟨h1, Or.inl rfl⟩
  · cases hf : cfg.pkgSet.order.find? (fun pkg => comm.isPrefixOf pkg) with
    | some q =>
        rw [hf] at h
        obtain rfl := Option.some.inj h
        have hp := List.find?_some hf
        exact ⟨List.mem_of_find?_eq_some hf, Or.inr ⟨h2, Or.inl (List.isPrefixOf_iff_prefix.mp hp)⟩⟩
    | none =>
        rw [hf] at h
        have hp := List.find?_some h
        exact ⟨List.mem_of_find?_eq_some h, Or.inr ⟨h2, Or.inr (List.isSuffixOf_iff_suffix.mp hp)⟩⟩

/-- A name is resolved exactly when it stands for some configured package. -/
theorem commToPkg_isSome {comm : Str} {cfg : AppConfig} :
    (commToPkg comm cfg).isSome = true ↔ ∃ pkg ∈ cfg.pkgSet, CommMatches comm pkg := by
  constructor
  · intro h
    obtain ⟨p, hp⟩ := Option.isSome_iff_exists.mp h
    exact ⟨p, (commToPkg_matches hp).1, (commToPkg_matches hp).2⟩
  · rintro ⟨pkg, hmem, hm⟩
    unfold commToPkg
    split_ifs with h1 h2
    · rfl
    · cases hf : cfg.pkgSet.order.find? (fun pkg => comm.isPrefixOf pkg) with
      | some q => rfl
      | none =>
          rcases hm with rfl | ⟨-, hp | hs⟩
          · exact absurd hmem h1
          · have := List.find?_eq_none.mp hf pkg hmem
            exact absurd (List.isPrefixOf_iff_prefix.mpr hp) this
          · exact List.find?_isSome.mpr ⟨pkg, hmem, List.isSuffixOf_iff_suffix.mpr hs⟩
    · rcases hm with rfl | ⟨hl, -⟩
      · exact absurd hmem h1
      · exact absurd hl h2

/-- `a` is the first member of the list with the property. -/
def FirstIn {α : Type*} (l : List α) (P : α → Prop) (a : α) : Prop :=
  P a ∧ ∃ before after, l = before ++ a :: after ∧ ∀ b ∈ before, ¬ P b

/-- The name is the package, or is not configured itself and is a long fragment that the
package is the first to begin with or, when none begins with it, the first to end with. -/
def NamesFirst (cfg : AppConfig) (comm p : Str) : Prop :=
  comm = p ∨ (comm ∉ cfg.pkgSet ∧ 15 ≤ Str.byteLen comm ∧
    (FirstIn cfg.pkgSet.order (fun q => comm <+: q) p ∨
      ((∀ q ∈ cfg.pkgSet, ¬ comm <+: q) ∧ FirstIn cfg.pkgSet.order (fun q => comm <:+ q) p)))

theorem find?_eq_some_firstIn {α : Type*} {l : List α} {P : α → Prop} {f : α → Bool} {a : α}
    (h : ∀ b, f b = true ↔ P b) : l.find? f = some a ↔ FirstIn l P a := by
  rw [List.find?_eq_some_iff_append, FirstIn, ← h a]
  refine and_congr_right fun _ => exists_congr fun as => exists_congr fun bs => and_congr_right fun _ => ?_
  refine forall_congr' fun b => imp_congr_right fun _ => ?_
  rw [← h b, Bool.not_eq_true', Bool.not_eq_true]

/-- `comm_to_pkg` answers with the configured package that the name stands for first. -/
theorem commToPkg_eq_some_iff {comm p : Str} {cfg : AppConfig} :
    commToPkg comm cfg = some p ↔ p ∈ cfg.pkgSet ∧ NamesFirst cfg comm p := by
  have hpre : ∀ a, cfg.pkgSet.order.find? (fun pkg => comm.isPrefixOf pkg) = some a ↔
      FirstIn cfg.pkgSet.order (fun q => comm <+: q) a :=
    fun a => find?_eq_some_firstIn fun _ => List.isPrefixOf_iff_prefix
  have hsuf : ∀ a, cfg.pkgSet.order.find? (fun pkg => comm.isSuffixOf pkg) = some a ↔
      FirstIn cfg.pkgSet.order (fun q => comm <:+ q) a :=
    fun a => find?_eq_some_firstIn fun _ => List.isSuffixOf_iff_suffix
  constructor
  · intro h
    refine ⟨(commToPkg_matches h).1, ?_⟩
    unfold commToPkg at h
    split_ifs at h with h1 h2
    · exact Or.inl (Option.some.inj h)
    · refine Or.inr ⟨h1, h2, ?_⟩
      cases hf : cfg.pkgSet.order.find? (fun pkg => comm.isPrefixOf pkg) with
      | some q =>
          rw [hf] at h
          obtain rfl := Option.some.inj h
          exact Or.inl ((hpre _).mp hf)
      | none =>
          rw [hf] at h
          refine Or.inr ⟨fun q hq hp => ?_, (hsuf _).mp h⟩
          exact List.find?_eq_none.mp hf q hq (List.isPrefixOf_iff_prefix.mpr hp)
  · rintro ⟨hmem, rfl | ⟨h1, h2, hp | ⟨hnone, hs⟩⟩⟩
    · exact if_pos hmem
    · simp [commToPkg, h1, h2, (hpre p).mpr hp]
    · have hf : cfg.pkgSet.order.find? (fun pkg => comm.isPrefixOf pkg) = none := by
        rw [List.find?_eq_none]
        exact fun q hq hp => hnone q hq (List.isPrefixOf_iff_prefix.mp hp)
      simp [commToPkg, h1, h2, hf, (hsuf p).mpr hs]

/-! ### `APPLIED_MAP` -/

/-- `applied_set`. -/
def appliedSet (applied : AppliedMap) (tid : Tid) (cpusBits0 : BitVec 64) : AppliedMap :=
  applied.insert tid cpusBits0

/-- `applied_del`. -/
def appliedDel (applied : AppliedMap) (tid : Tid) : AppliedMap := applied.erase tid

/-- `applied_clear`: the keys are collected first and then removed one by one. -/
def appliedClear (applied : AppliedMap) : AppliedMap := applied.eraseAll applied.keys

@[simp] theorem mem_appliedSet {applied : AppliedMap} {tid t : Tid} {w : BitVec 64} :
    t ∈ appliedSet applied tid w ↔ t = tid ∨ t ∈ applied := KeyMap.mem_insert

@[simp] theorem mem_appliedDel {applied : AppliedMap} {tid t : Tid} :
    t ∈ appliedDel applied tid ↔ t ≠ tid ∧ t ∈ applied := AList.mem_erase

end AetherOptExt
