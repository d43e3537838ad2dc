import AetherOptExt.Config
import AetherOptExt.Lib.Glob

/-! # The pattern language

The README, `rule_prio` and the loader's test for wildcards read a pattern as a glob: stars,
question marks and character classes.  `tokens` reads it so, and `GlobMatches` is the usual
meaning.  `fnmatch` knows one star only and takes everything else literally, a second star
included (`fnmatch_literal`, `fnmatch_star`).  `fnmatch_glob_iff` says for which patterns the two agree. -/

namespace AetherOptExt

open Glob Glob.Token

/-! ### Reading a pattern -/

/-- May a `]` close a class with this body?  As the first member it stands for itself. -/
def bodyEnds (body : Str) : Bool := body != [] && body != ['!']

/-- Is a class with this body closed in the rest of the pattern? -/
def closes : Str → Str → Bool
  | _, [] => false
  | body, c :: s => (c == ']' && bodyEnds body) || closes (body ++ [c]) s

/-- The tokens of a pattern; the state is the body of the open class.  A bracket that is never
closed is a literal. -/
def scanTokens : Option Str → Str → List (Token Char Str)
  | _, [] => []
  | none, c :: s =>
      if c = '*' then many :: scanTokens none s
      else if c = '?' then one :: scanTokens none s
      else if c = '[' ∧ closes [] s = true then scanTokens (some []) s
      else lit c :: scanTokens none s
  | some body, c :: s =>
      if c = ']' ∧ bodyEnds body = true then cls body :: scanTokens none s else scanTokens (some (body ++ [c])) s

/-- The tokens of a pattern. -/
def tokens (pat : Str) : List (Token Char Str) := scanTokens none pat

/-- The members of a class: single characters and ranges. -/
def itemsHave : Str → Char → Bool
  | lo :: '-' :: hi :: items, c => (decide (lo ≤ c) && decide (c ≤ hi)) || itemsHave items c
  | d :: items, c => c == d || itemsHave items c
  | [], _ => false

/-- The characters of a class; a leading `!` negates it. -/
def ClassHas (body : Str) (c : Char) : Prop :=
  match body with
  | '!' :: items => itemsHave items c = false
  | items => itemsHave items c = true

/-- The pattern matches the whole name as a glob. -/
def GlobMatches (pat name : Str) : Prop := Matches ClassHas (tokens pat) name

/-- The text of a token. -/
def tokenText : Token Char Str → Str
  | lit c => [c]
  | one => ['?']
  | many => ['*']
  | cls body => '[' :: (body ++ [']'])

/-- Reading loses nothing. -/
theorem flatMap_scanTokens : ∀ s : Str, (scanTokens none s).flatMap tokenText = s ∧
    ∀ body, closes body s = true → (scanTokens (some body) s).flatMap tokenText = '[' :: (body ++ s)
  | [] => ⟨rfl, fun body h => by simp [closes] at h⟩
  | c :: s => by
      obtain ⟨hnone, hsome⟩ := flatMap_scanTokens s
      constructor
      · rw [scanTokens]
        split_ifs with h₁ h₂ h₃
        · rw [List.flatMap_cons, hnone, h₁]
          rfl
        · rw [List.flatMap_cons, hnone, h₂]
          rfl
        · rw [hsome [] h₃.2, h₃.1]
          rfl
        · rw [List.flatMap_cons, hnone]
          rfl
      · intro body h
        rw [scanTokens]
        split_ifs with h₁
        · rw [List.flatMap_cons, hnone, h₁.1]
          simp [tokenText]
        · have h' : closes (body ++ [c]) s = true := by
            rw [closes, Bool.or_eq_true, Bool.and_eq_true, beq_iff_eq] at h
            exact h.resolve_left h₁
          rw [hsome _ h']
          simp

theorem flatMap_tokens (pat : Str) : (tokens pat).flatMap tokenText = pat := (flatMap_scanTokens pat).1

/-- A token as reading makes it: stars and question marks are no literals, and no class is
without a body. -/
def ReadToken : Token Char Str → Prop
  | lit c => c ≠ '*' ∧ c ≠ '?'
  | cls body => body ≠ []
  | _ => True

theorem readToken_scanTokens : ∀ (s : Str) (st : Option Str), ∀ t ∈ scanTokens st s, ReadToken t
  | [], st, t, h => by
      cases st <;> simp [scanTokens] at h
  | c :: s, none, t, h => by
      rw [scanTokens] at h
      split_ifs at h with h₁ h₂ h₃
      · rcases List.mem_cons.mp h with rfl | h
        · trivial
        · exact readToken_scanTokens s none t h
      · rcases List.mem_cons.mp h with rfl | h
        · trivial
        · exact readToken_scanTokens s none t h
      · exact readToken_scanTokens s (some []) t h
      · rcases List.mem_cons.mp h with rfl | h
        · exact ⟨h₁, h₂⟩
        · exact readToken_scanTokens s none t h
  | c :: s, some body, t, h => by
      rw [scanTokens] at h
      split_ifs at h with h₁
      · rcases List.mem_cons.mp h with rfl | h
        · rintro rfl
          exact Bool.false_ne_true h₁.2
        · exact readToken_scanTokens s none t h
      · exact readToken_scanTokens s (some (body ++ [c])) t h

theorem readToken_tokens {pat : Str} {t : Token Char Str} (h : t ∈ tokens pat) : ReadToken t :=
  readToken_scanTokens pat none t h

/-! ### What `fnmatch` computes -/

/-- With a star, the text before the first one is a prefix, and the rest after it a suffix. -/
theorem fnmatch_star {pre post name : Str} (h : '*' ∉ pre) :
    fnmatch (pre ++ '*' :: post) name = true ↔ ∃ u, name = pre ++ (u ++ post) := by
  have hfind : (pre ++ '*' :: post).findIdx? (· == '*') = some pre.length := by
    rw [List.findIdx?_append, findIdx_star h]
    simp [List.findIdx?_cons]
  have hdrop : (pre ++ '*' :: post).drop (pre.length + 1) = post := by
    rw [← List.drop_drop, List.drop_left]
    rfl
  unfold fnmatch
  rw [if_neg (by simp), hfind]
  dsimp only
  rw [List.take_left, hdrop, Bool.and_eq_true, Bool.or_eq_true, List.isPrefixOf_iff_prefix, List.isEmpty_iff,
    List.isSuffixOf_iff_suffix]
  constructor
  · rintro ⟨⟨r, rfl⟩, hpost⟩
    rw [List.drop_left] at hpost
    rcases hpost with rfl | ⟨u, rfl⟩
    · exact ⟨r, by rw [List.append_nil]⟩
    · exact ⟨u, rfl⟩
  · rintro ⟨u, rfl⟩
    refine ⟨List.prefix_append _ _, .inr ?_⟩
    rw [List.drop_left]
    exact List.suffix_append _ _

/-- What matches has all characters of the pattern, one star apart. -/
theorem fnmatch_bounds {pat name : Str} (hne : pat ≠ []) (h : fnmatch pat name = true) :
    pat.length ≤ name.length + 1 ∧ ∀ c ∈ pat, c ≠ '*' → c ∈ name := by
  by_cases hstar : '*' ∈ pat
  · obtain ⟨pre, post, rfl, hpre⟩ := List.eq_append_cons_of_mem hstar
    obtain ⟨u, rfl⟩ := (fnmatch_star hpre).mp h
    constructor
    · simp only [List.length_append, List.length_cons]
      omega
    · intro c hc hne
      simp only [List.mem_append, List.mem_cons] at hc ⊢
      tauto
  · obtain rfl := (fnmatch_literal hne hstar).mp h
    exact ⟨Nat.le_succ _, fun c hc _ => hc⟩

/-! ### Where the two agree -/

/-- The text picked for a token is shorter than the token by a star or by two brackets. -/
theorem length_pick_token (f : Str → Char) {t : Token Char Str} (ht : ReadToken t) :
    (pick 'a' f t).length + (if t == many then 1 else 0) + 2 * (if t.isClass then 1 else 0) ≤ (tokenText t).length := by
  cases t with
  | lit c => exact le_rfl
  | one => exact le_rfl
  | many => exact le_rfl
  | cls body =>
      have hpos : 0 < body.length := List.length_pos_iff.mpr ht
      have hlen : (tokenText (cls body)).length = body.length + 2 := by simp [tokenText]
      rw [hlen]
      simp only [pick, Token.isClass, List.length_singleton, if_true]
      have hmany : ((cls body : Token Char Str) == many) = false := rfl
      rw [hmany]
      simp only [Bool.false_eq_true, if_false]
      omega

theorem length_pick_le (f : Str → Char) : ∀ {ts : List (Token Char Str)}, (∀ t ∈ ts, ReadToken t) →
    (ts.flatMap (pick 'a' f)).length + ts.count many + 2 * ts.countP Token.isClass ≤ (ts.flatMap tokenText).length
  | [], _ => le_rfl
  | t :: ts, h => by
      have ih := length_pick_le f fun u hu => h u (List.mem_cons_of_mem t hu)
      have ht := length_pick_token f (h t List.mem_cons_self)
      rw [List.flatMap_cons, List.flatMap_cons, List.length_append, List.length_append, List.count_cons,
        List.countP_cons]
      omega

/-- Without classes no question mark is picked. -/
theorem questionMark_notMem_pick (f : Str → Char) {ts : List (Token Char Str)} (h : ∀ t ∈ ts, ReadToken t)
    (hcls : ∀ t ∈ ts, t.isClass = false) : '?' ∉ ts.flatMap (pick 'a' f) := by
  intro hmem
  obtain ⟨t, ht, hc⟩ := List.mem_flatMap.mp hmem
  cases t with
  | lit c => exact (h _ ht).2 (List.mem_singleton.mp hc).symm
  | one => exact absurd (List.mem_singleton.mp hc) (by decide)
  | many => exact List.not_mem_nil hc
  | cls body => exact Bool.false_ne_true (hcls _ ht).symm

theorem mem_tokens_text {pat : Str} {t : Token Char Str} (h : t ∈ tokens pat) {c : Char} (hc : c ∈ tokenText t) :
    c ∈ pat := by
  rw [← flatMap_tokens pat]
  exact List.mem_flatMap.mpr ⟨t, h, hc⟩

/-- The text of literals is the literals. -/
theorem flatMap_lits : ∀ p : Str, (p.map (lit (κ := Str))).flatMap tokenText = p
  | [] => rfl
  | c :: p => by
      rw [List.map_cons, List.flatMap_cons, flatMap_lits p]
      rfl

/-- On a plain pattern `fnmatch` is the glob. -/
theorem fnmatch_of_isPlain {pat name : Str} (hne : pat ≠ []) (h : IsPlain (tokens pat)) :
    fnmatch pat name = true ↔ GlobMatches pat name := by
  have hlit : ∀ (p : Str) (ts : List (Token Char Str)), tokens pat = p.map lit ++ ts → '*' ∉ p := by
    intro p ts he hmem
    have hread : ReadToken (lit '*' : Token Char Str) := by
      have hin : lit '*' ∈ tokens pat := by
        rw [he]
        exact List.mem_append_left _ (List.mem_map_of_mem hmem)
      exact readToken_tokens hin
    exact hread.1 rfl
  have htext := flatMap_tokens pat
  unfold GlobMatches
  rcases h.cases with ⟨p, hp⟩ | ⟨pre, post, hp⟩
  · have hstar := hlit p [] (by rw [hp, List.append_nil])
    rw [hp, flatMap_lits] at htext
    subst htext
    rw [hp, matches_lits, fnmatch_literal hne hstar, eq_comm]
  · have hstar := hlit pre _ hp
    rw [hp, List.flatMap_append, List.flatMap_cons, flatMap_lits, flatMap_lits] at htext
    change pre ++ '*' :: post = pat at htext
    rw [hp, matches_star_lits, ← htext, fnmatch_star hstar]

/-- **On which patterns `fnmatch` is the glob.** -/
theorem fnmatch_glob_iff (pat : Str) (hne : pat ≠ []) :
    (∀ name, fnmatch pat name = true ↔ GlobMatches pat name) ↔ IsPlain (tokens pat) := by
  constructor
  · intro h
    have hread : ∀ t ∈ tokens pat, ReadToken t := fun t => readToken_tokens
    -- every class has a member, for the pattern matches its own text
    have hclass : ∀ k, ∃ c, cls k ∈ tokens pat → ClassHas k c := by
      intro k
      by_contra hk
      push Not at hk
      exact not_matches_of_empty (fun c => (hk c).2) (hk 'a').1 ((h pat).mp (fnmatch_self hne))
    choose f hf using hclass
    obtain ⟨hlen, hchars⟩ := fnmatch_bounds hne ((h _).mpr (matches_pick 'a' f fun k hk => hf k hk))
    have hle := length_pick_le f hread
    rw [flatMap_tokens] at hle
    have hcls : ∀ t ∈ tokens pat, t.isClass = false := by
      have hzero : (tokens pat).countP Token.isClass = 0 := by omega
      exact fun t ht => Bool.eq_false_iff.mpr (List.countP_eq_zero.mp hzero t ht)
    refine ⟨fun t ht => ?_, by omega⟩
    cases t with
    | lit c => exact .inr ⟨c, rfl⟩
    | one =>
        have hmem := hchars '?' (mem_tokens_text ht List.mem_cons_self) (by decide)
        exact absurd hmem (questionMark_notMem_pick f hread hcls)
    | many => exact .inl rfl
    | cls body => exact absurd (hcls _ ht).symm Bool.false_ne_true
  · exact fun h name => fnmatch_of_isPlain hne h

/-- A shipped rule for the threads `Thread-00` to `Thread-59` matches none of them. -/
theorem shipped_class_unmatched :
    GlobMatches "Thread-[0-5][0-9]".toList "Thread-12".toList ∧
      fnmatch "Thread-[0-5][0-9]".toList "Thread-12".toList = false ∧
      ¬ ∀ pat, pat ≠ [] → ∀ name, fnmatch pat name = true ↔ GlobMatches pat name := by
  have htokens : tokens "Thread-[0-5][0-9]".toList =
      "Thread-".toList.map lit ++ [cls "0-5".toList, cls "0-9".toList] := by decide +kernel
  have hglob : GlobMatches "Thread-[0-5][0-9]".toList "Thread-12".toList := by
    unfold GlobMatches
    rw [htokens, matches_lits_append]
    exact ⟨"12".toList, rfl, '1', "2".toList, rfl, rfl, '2', [], rfl, rfl, rfl⟩
  have hmiss : fnmatch "Thread-[0-5][0-9]".toList "Thread-12".toList = false := by decide
  refine ⟨hglob, hmiss, fun h => ?_⟩
  have hmatch := (h _ (by decide) _).mpr hglob
  rw [hmiss] at hmatch
  exact Bool.false_ne_true hmatch

theorem fnmatch_glob_iff_render :
    (∀ name, fnmatch "Render*".toList name = true ↔ GlobMatches "Render*".toList name) ↔
      IsPlain (tokens "Render*".toList) :=
  fnmatch_glob_iff "Render*".toList (by decide)

end AetherOptExt
