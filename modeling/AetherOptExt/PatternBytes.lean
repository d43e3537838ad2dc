import AetherOptExt.PatternLanguage
import AetherOptExt.Lib.Utf8Slice

/-! # `fnmatch` on bytes

The source of `fnmatch` works on the bytes of the pattern and the name: `find` answers with a
byte index, and the slices taken there panic inside a character or out of bounds.
`fnmatchBytes` is the same function with its slices checked, `none` for a panic.  It never
panics, and computes what `fnmatch` computes on characters (`fnmatchBytes_eq`): the star that
was found is a character of its own, and the name is cut only after it was seen to begin with
the text before the star.

For a pattern with one star the answer is exact: the name is the pattern with the star replaced
by some text, so that the text before the star and the text after it never overlap in it. -/

namespace AetherOptExt

open Str

/-- `fnmatch` on the bytes of its arguments, its slices checked in the order they are taken. -/
def fnmatchBytes (pat name : List UInt8) : Option Bool :=
  if pat.isEmpty then some false
  else match pat.findIdx? (· == UInt8.ofNat '*'.toNat) with
    | none => some (pat == name)
    | some pos =>
        (sliceTo pat pos).bind fun pre =>
          if !pre.isPrefixOf name then some false
          else (sliceFrom pat (pos + 1)).bind fun post =>
            if post.isEmpty then some true
            else (sliceFrom name pos).bind fun rest =>
              (sliceFrom pat (pos + 1)).bind fun post => some (post.isSuffixOf rest)

/-- **No slice of `fnmatch` panics**, and the answer is that of `fnmatch` on characters. -/
theorem fnmatchBytes_eq (pat name : Str) : fnmatchBytes (utf8 pat) (utf8 name) = some (fnmatch pat name) := by
  unfold fnmatchBytes fnmatch
  by_cases hne : pat = []
  · subst hne
    rfl
  · rw [if_neg (by simpa [utf8_eq_nil] using hne), if_neg (by simpa using hne)]
    by_cases hstar : '*' ∈ pat
    · obtain ⟨pre, post, rfl, hpre⟩ := List.eq_append_cons_of_mem hstar
      have hlen : byteLen pre + 1 = byteLen (pre ++ ['*']) := by
        rw [byteLen_append]
        rfl
      have hpost : sliceFrom (utf8 (pre ++ '*' :: post)) (byteLen pre + 1) = some (utf8 post) := by
        rw [hlen, List.append_cons]
        exact sliceFrom_append (pre ++ ['*']) post
      have hfind : (pre ++ '*' :: post).findIdx? (· == '*') = some pre.length := by
        rw [List.findIdx?_append, findIdx_star hpre]
        simp [List.findIdx?_cons]
      have hdrop : (pre ++ '*' :: post).drop (pre.length + 1) = post := by
        rw [← List.drop_drop, List.drop_left]
        rfl
      rw [findIdx_utf8 (by decide) hpre, hfind]
      dsimp only
      rw [sliceTo_append, Option.bind_some, List.take_left, hdrop, hpost, Option.bind_some]
      have hbegins : (utf8 pre).isPrefixOf (utf8 name) = pre.isPrefixOf name := by
        rw [Bool.eq_iff_iff, List.isPrefixOf_iff_prefix, List.isPrefixOf_iff_prefix, utf8_prefix_iff]
      have hempty : (utf8 post).isEmpty = post.isEmpty := by
        rw [Bool.eq_iff_iff, List.isEmpty_iff, List.isEmpty_iff, utf8_eq_nil]
      rw [hbegins, hempty]
      cases hp : pre.isPrefixOf name with
      | false => rfl
      | true =>
          -- the name begins with the text before the star, so it can be cut there
          obtain ⟨rest, rfl⟩ := List.isPrefixOf_iff_prefix.mp hp
          have hends : (utf8 post).isSuffixOf (utf8 rest) = post.isSuffixOf rest := by
            rw [Bool.eq_iff_iff, List.isSuffixOf_iff_suffix, List.isSuffixOf_iff_suffix, utf8_suffix_iff]
          rw [sliceFrom_append, Option.bind_some, Option.bind_some, List.drop_left, hends]
          cases post.isEmpty with
          | false => rfl
          | true => rfl
    · have heq : (utf8 pat == utf8 name) = (pat == name) := by
        rw [Bool.eq_iff_iff, beq_iff_eq, beq_iff_eq]
        exact ⟨utf8_injective, congrArg utf8⟩
      rw [findIdx_utf8_none (by decide) hstar, findIdx_star hstar, heq]

/-! ### One star -/

/-- The text with every star replaced by `u`. -/
def replaceStar (u pat : Str) : Str := pat.flatMap (fun c => if c = '*' then u else [c])

theorem replaceStar_of_notMem (u : Str) {pat : Str} (h : '*' ∉ pat) : replaceStar u pat = pat := by
  have hself : ∀ c ∈ pat, (if c = '*' then u else [c]) = [c] := by
    intro c hc
    refine if_neg ?_
    rintro rfl
    exact h hc
  unfold replaceStar
  rw [List.flatMap_congr hself, List.flatMap_singleton']

theorem replaceStar_append (u : Str) (s t : Str) : replaceStar u (s ++ t) = replaceStar u s ++ replaceStar u t :=
  List.flatMap_append ..

/-- With one star, the pattern is the text before it and the text after it. -/
theorem replaceStar_star (u : Str) {pre post : Str} (hpre : '*' ∉ pre) (hpost : '*' ∉ post) :
    replaceStar u (pre ++ '*' :: post) = pre ++ (u ++ post) := by
  rw [replaceStar_append, replaceStar_of_notMem u hpre]
  congr 1
  show (if '*' = '*' then u else ['*']) ++ replaceStar u post = _
  rw [if_pos rfl, replaceStar_of_notMem u hpost]

/-- A pattern with at most one star matches what its star can stand for. -/
theorem fnmatch_iff_replaceStar {pat name : Str} (hne : pat ≠ []) (hcount : pat.count '*' ≤ 1) :
    fnmatch pat name = true ↔ ∃ u, name = replaceStar u pat := by
  by_cases hstar : '*' ∈ pat
  · obtain ⟨pre, post, rfl, hpre⟩ := List.eq_append_cons_of_mem hstar
    have hpost : '*' ∉ post := by
      rw [List.count_append, List.count_cons_self] at hcount
      exact List.count_eq_zero.mp (by omega)
    rw [fnmatch_star hpre]
    simp only [replaceStar_star _ hpre hpost]
  · rw [fnmatch_literal hne hstar]
    simp only [replaceStar_of_notMem _ hstar, exists_const]
    exact eq_comm

/-- The literal characters of the pattern have their own place in a name that matches. -/
theorem byteLen_replaceStar (u pat : Str) : byteLen (pat.filter (· != '*')) ≤ byteLen (replaceStar u pat) := by
  induction pat with
  | nil => exact le_rfl
  | cons c pat ih =>
      have hcons : replaceStar u (c :: pat) = (if c = '*' then u else [c]) ++ replaceStar u pat := rfl
      rw [hcons, byteLen_append]
      by_cases hc : c = '*'
      · rw [List.filter_cons_of_neg (by simp [hc])]
        omega
      · rw [List.filter_cons_of_pos (by simp [hc]), if_neg hc, byteLen_cons]
        have hone : byteLen [c] = c.utf8Size := by rw [byteLen_cons]; rfl
        omega

/-- **`fnmatch` never slices inside a character, and is exact on patterns with one star.** -/
theorem fnmatch_exact (pat name : Str) :
    fnmatchBytes (utf8 pat) (utf8 name) = some (fnmatch pat name) ∧
      (pat ≠ [] → pat.count '*' ≤ 1 →
        (fnmatch pat name = true ↔ ∃ u, name = replaceStar u pat) ∧
        (fnmatch pat name = true → byteLen (pat.filter (· != '*')) ≤ byteLen name)) := by
  refine ⟨fnmatchBytes_eq pat name, fun hne hcount => ?_⟩
  have hiff : fnmatch pat name = true ↔ ∃ u, name = replaceStar u pat := fnmatch_iff_replaceStar hne hcount
  refine ⟨hiff, fun h => ?_⟩
  obtain ⟨u, rfl⟩ := hiff.mp h
  exact byteLen_replaceStar u pat

/-- A name in which the two parts would overlap, and one that fits; the characters have two bytes. -/
theorem fnmatch_exact_overlap :
    fnmatchBytes (utf8 "éa*aé".toList) (utf8 "éaé".toList) = some false ∧
      ∃ u, "éaxaé".toList = replaceStar u "éa*aé".toList := by
  have hno := (fnmatch_exact "éa*aé".toList "éaé".toList).1
  have hyes := (fnmatch_exact "éa*aé".toList "éaxaé".toList).2 (by decide) (by decide)
  exact ⟨hno.trans (by decide), hyes.1.mp (by decide)⟩

end AetherOptExt
