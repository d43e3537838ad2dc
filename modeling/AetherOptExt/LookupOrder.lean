import AetherOptExt.Daemon

/-! # The hash order and the package of a name

`comm_to_pkg` searches a hash set whose iteration order is arbitrary: for a configured name
that begins with the thread name and, when there is none, for one that ends with it.  The
first hit is the answer.  `commToPkg_orderFree_iff` says for which sets and names every order
gives the same one: the name is configured, or too short to be a fragment, or the search that
decides has one hit at most. -/

namespace AetherOptExt

/-- The name is configured or is no fragment, or at most one configured name begins with it
and, when none does, at most one ends with it. -/
def Unambiguous (names : KeySet Str) (comm : Str) : Prop :=
  comm ∈ names ∨ Str.byteLen comm < 15 ∨
    (∀ p ∈ names, ∀ q ∈ names, comm <+: p → comm <+: q → p = q) ∧
      ((∀ q ∈ names, ¬ comm <+: q) → ∀ p ∈ names, ∀ q ∈ names, comm <:+ p → comm <:+ q → p = q)

/-- The lookup of a fragment that is not configured itself. -/
theorem commToPkg_fragment {cfg : AppConfig} {comm : Str} (hn : comm ∉ cfg.pkgSet) (hl : 15 ≤ Str.byteLen comm) :
    commToPkg comm cfg = (cfg.pkgSet.order.find? (fun pkg => comm.isPrefixOf pkg)).or
      (cfg.pkgSet.order.find? (fun pkg => comm.isSuffixOf pkg)) := by
  unfold commToPkg
  rw [if_neg hn, if_pos hl]
  cases cfg.pkgSet.order.find? (fun pkg => comm.isPrefixOf pkg) with
  | none => rfl
  | some p => rfl

section

variable {cfg : AppConfig} {comm p : Str} {A : KeySet Str}

/-- A configured name that begins with the fragment is the answer when it comes first. -/
theorem commToPkg_front_cut (hn : comm ∉ cfg.pkgSet) (hl : 15 ≤ Str.byteLen comm) (hp : p ∈ cfg.pkgSet)
    (h : comm <+: p) : commToPkg comm { cfg with pkgSet := cfg.pkgSet.front p } = some p := by
  have hn' : comm ∉ cfg.pkgSet.front p := fun hm => hn ((KeySet.front_sameMembers hp comm).mp hm)
  rw [commToPkg_fragment hn' hl, KeySet.find?_front (List.isPrefixOf_iff_prefix.mpr h)]
  rfl

/-- So is one that ends with it, when none begins with it. -/
theorem commToPkg_front_suffix (hn : comm ∉ cfg.pkgSet) (hl : 15 ≤ Str.byteLen comm) (hp : p ∈ cfg.pkgSet)
    (hnone : ∀ q ∈ cfg.pkgSet, ¬ comm <+: q) (h : comm <:+ p) :
    commToPkg comm { cfg with pkgSet := cfg.pkgSet.front p } = some p := by
  have hmem := KeySet.front_sameMembers hp
  have hn' : comm ∉ cfg.pkgSet.front p := fun hm => hn ((hmem comm).mp hm)
  have hpre : (cfg.pkgSet.front p).order.find? (fun pkg => comm.isPrefixOf pkg) = none := by
    rw [List.find?_eq_none]
    exact fun q hq hpq => hnone q ((hmem q).mp hq) (List.isPrefixOf_iff_prefix.mp hpq)
  rw [commToPkg_fragment hn' hl, hpre, KeySet.find?_front (List.isSuffixOf_iff_suffix.mpr h)]
  rfl

/-- An unambiguous name has one answer under all orders. -/
theorem Unambiguous.commToPkg_congr (h : Unambiguous cfg.pkgSet comm) (hA : A.SameMembers cfg.pkgSet) :
    commToPkg comm { cfg with pkgSet := A } = commToPkg comm cfg := by
  by_cases hm : comm ∈ cfg.pkgSet
  · have hmA : comm ∈ A := (hA comm).mpr hm
    exact (if_pos hmA).trans (if_pos hm).symm
  have hmA : comm ∉ A := fun hm' => hm ((hA comm).mp hm')
  by_cases hl : Str.byteLen comm < 15
  · have hl' : ¬ 15 ≤ Str.byteLen comm := by omega
    unfold commToPkg
    rw [if_neg hm, if_neg hl', if_neg hmA, if_neg hl']
  obtain ⟨hpre, hsuf⟩ := (h.resolve_left hm).resolve_left hl
  rw [commToPkg_fragment hmA (Nat.le_of_not_lt hl), commToPkg_fragment hm (Nat.le_of_not_lt hl)]
  have hfirst : A.order.find? (fun pkg => comm.isPrefixOf pkg) =
      cfg.pkgSet.order.find? (fun pkg => comm.isPrefixOf pkg) := by
    refine (KeySet.find?_congr (fun a => (hA a).symm) fun a ha b hb hpa hpb => ?_).symm
    exact hpre a ha b hb (List.isPrefixOf_iff_prefix.mp hpa) (List.isPrefixOf_iff_prefix.mp hpb)
  rw [hfirst]
  cases hf : cfg.pkgSet.order.find? (fun pkg => comm.isPrefixOf pkg) with
  | some q => rfl
  | none =>
      have hnone : ∀ q ∈ cfg.pkgSet, ¬ comm <+: q := fun q hq hpq =>
        List.find?_eq_none.mp hf q hq (List.isPrefixOf_iff_prefix.mpr hpq)
      refine (KeySet.find?_congr (fun a => (hA a).symm) fun a ha b hb hpa hpb => ?_).symm
      exact hsuf hnone a ha b hb (List.isSuffixOf_iff_suffix.mp hpa) (List.isSuffixOf_iff_suffix.mp hpb)

end

/-- **When the hash order does not matter**: all orders of the set of packages give the same
answer exactly when the name is unambiguous. -/
theorem commToPkg_orderFree_iff (cfg : AppConfig) (comm : Str) :
    (∀ A B : KeySet Str, A.SameMembers cfg.pkgSet → B.SameMembers cfg.pkgSet →
      commToPkg comm { cfg with pkgSet := A } = commToPkg comm { cfg with pkgSet := B }) ↔
      Unambiguous cfg.pkgSet comm := by
  constructor
  · intro h
    by_cases hm : comm ∈ cfg.pkgSet
    · exact Or.inl hm
    by_cases hl : Str.byteLen comm < 15
    · exact Or.inr (Or.inl hl)
    have hl' : 15 ≤ Str.byteLen comm := Nat.le_of_not_lt hl
    -- each of two hits is the answer of the order that begins with it
    refine Or.inr (Or.inr ⟨fun p hp q hq hcp hcq => ?_, fun hnone p hp q hq hcp hcq => ?_⟩)
    · have heq := h _ _ (KeySet.front_sameMembers hp) (KeySet.front_sameMembers hq)
      rw [commToPkg_front_cut hm hl' hp hcp, commToPkg_front_cut hm hl' hq hcq] at heq
      exact Option.some.inj heq
    · have heq := h _ _ (KeySet.front_sameMembers hp) (KeySet.front_sameMembers hq)
      rw [commToPkg_front_suffix hm hl' hp hnone hcp, commToPkg_front_suffix hm hl' hq hnone hcq] at heq
      exact Option.some.inj heq
  · intro h A B hA hB
    rw [h.commToPkg_congr hA, h.commToPkg_congr hB]

/-- Two packages of one store, in one of the two orders. -/
def storePackages : KeySet Str :=
  ⟨["com.netease.mc.nearme.gamecenter".toList, "com.tq.he.nearme.gamecenter".toList], by decide⟩

/-- The last 15 bytes of both names resolve to the one that comes first. -/
theorem store_packages_ordered :
    ¬ ∀ A B : KeySet Str, A.SameMembers storePackages → B.SameMembers storePackages →
      commToPkg "arme.gamecenter".toList { oneRule with pkgSet := A } =
        commToPkg "arme.gamecenter".toList { oneRule with pkgSet := B } := by
  intro h
  have hmem : "com.tq.he.nearme.gamecenter".toList ∈ storePackages := by decide
  have heq := h storePackages (storePackages.front "com.tq.he.nearme.gamecenter".toList) (fun _ => Iff.rfl)
    (KeySet.front_sameMembers hmem)
  revert heq
  decide

end AetherOptExt
