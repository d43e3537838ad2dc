import Mathlib.Data.List.Basic

/-! # Glob patterns

A pattern is a list of tokens: a literal, one arbitrary letter, a letter of a class, or `many`
for any text.  The letters and the classes are arbitrary types, `mem` says which letters a
class has.  `Matches` is the usual meaning.  Patterns of literals, and of literals around one
star, have a closed form; and every pattern whose classes have members matches the text made by
picking a letter for each token and nothing for a star (`matches_pick`). -/

namespace Glob

/-- A token of a pattern over the letters `α` with the classes `κ`. -/
inductive Token (α κ : Type*) where
  | lit (c : α)
  | one
  | many
  | cls (k : κ)
deriving DecidableEq

open Token

variable {α κ : Type*} {mem : κ → α → Prop} {ts : List (Token α κ)} {s : List α}

/-- The text is matched by the pattern. -/
def Matches (mem : κ → α → Prop) : List (Token α κ) → List α → Prop
  | [], s => s = []
  | lit c :: ts, s => ∃ r, s = c :: r ∧ Matches mem ts r
  | one :: ts, s => ∃ c r, s = c :: r ∧ Matches mem ts r
  | many :: ts, s => ∃ u r, s = u ++ r ∧ Matches mem ts r
  | cls k :: ts, s => ∃ c r, s = c :: r ∧ mem k c ∧ Matches mem ts r

/-! ### Literals and one star -/

theorem matches_lits_append : ∀ {p : List α} {s : List α},
    Matches mem (p.map lit ++ ts) s ↔ ∃ r, s = p ++ r ∧ Matches mem ts r
  | [], s => by simp
  | c :: p, s => by
      rw [List.map_cons, List.cons_append, Matches]
      constructor
      · rintro ⟨q, rfl, hq⟩
        obtain ⟨r, rfl, h⟩ := matches_lits_append.mp hq
        exact ⟨r, rfl, h⟩
      · rintro ⟨r, rfl, h⟩
        exact ⟨p ++ r, rfl, matches_lits_append.mpr ⟨r, rfl, h⟩⟩

theorem matches_lits {p : List α} : Matches mem (p.map lit) s ↔ s = p := by
  have h : Matches mem (p.map lit ++ []) s ↔ ∃ r, s = p ++ r ∧ Matches mem [] r := matches_lits_append
  rw [List.append_nil] at h
  rw [h]
  simp [Matches]

theorem matches_star_lits {pre post : List α} :
    Matches mem (pre.map lit ++ many :: post.map lit) s ↔ ∃ u, s = pre ++ (u ++ post) := by
  rw [matches_lits_append]
  constructor
  · rintro ⟨r, rfl, u, q, rfl, hq⟩
    exact ⟨u, by rw [matches_lits.mp hq]⟩
  · rintro ⟨u, rfl⟩
    exact ⟨u ++ post, rfl, u, post, rfl, matches_lits.mpr rfl⟩

/-- A pattern of literals and at most one star. -/
def IsPlain [DecidableEq α] [DecidableEq κ] (ts : List (Token α κ)) : Prop :=
  (∀ t ∈ ts, t = many ∨ ∃ c, t = lit c) ∧ ts.count many ≤ 1

theorem eq_map_lit : ∀ {ts : List (Token α κ)}, (∀ t ∈ ts, ∃ c, t = lit c) → ∃ p : List α, ts = p.map lit
  | [], _ => ⟨[], rfl⟩
  | t :: ts, h => by
      obtain ⟨p, rfl⟩ := eq_map_lit fun u hu => h u (List.mem_cons_of_mem t hu)
      obtain ⟨c, rfl⟩ := h t List.mem_cons_self
      exact ⟨c :: p, rfl⟩

theorem IsPlain.cases [DecidableEq α] [DecidableEq κ] : ∀ {ts : List (Token α κ)}, IsPlain ts →
    (∃ p : List α, ts = p.map lit) ∨ ∃ pre post : List α, ts = pre.map lit ++ many :: post.map lit
  | [], _ => .inl ⟨[], rfl⟩
  | t :: ts, ⟨h, hcount⟩ => by
      have htail : ∀ u ∈ ts, u = many ∨ ∃ c, u = lit c := fun u hu => h u (List.mem_cons_of_mem t hu)
      rcases h t List.mem_cons_self with rfl | ⟨c, rfl⟩
      · -- the only star is the first token
        rw [List.count_cons_self] at hcount
        have hnostar : many ∉ ts := List.count_eq_zero.mp (by omega)
        obtain ⟨post, rfl⟩ := eq_map_lit fun u hu => (htail u hu).resolve_left fun e => hnostar (e ▸ hu)
        exact .inr ⟨[], post, rfl⟩
      · rw [List.count_cons_of_ne (by simp)] at hcount
        rcases IsPlain.cases ⟨htail, hcount⟩ with ⟨p, rfl⟩ | ⟨pre, post, rfl⟩
        · exact .inl ⟨c :: p, rfl⟩
        · exact .inr ⟨c :: pre, post, rfl⟩

/-- Is the token a class? -/
def Token.isClass : Token α κ → Bool
  | cls _ => true
  | _ => false

/-! ### Picking a text -/

/-- A text for one token: `a` for any letter, `f k` for a letter of the class `k`. -/
def pick (a : α) (f : κ → α) : Token α κ → List α
  | lit c => [c]
  | one => [a]
  | many => []
  | cls k => [f k]

theorem matches_pick (a : α) (f : κ → α) : ∀ {ts : List (Token α κ)}, (∀ k, cls k ∈ ts → mem k (f k)) →
    Matches mem ts (ts.flatMap (pick a f))
  | [], _ => rfl
  | t :: ts, h => by
      have ih := matches_pick a f fun k hk => h k (List.mem_cons_of_mem t hk)
      cases t with
      | lit c => exact ⟨_, rfl, ih⟩
      | one => exact ⟨a, _, rfl, ih⟩
      | many => exact ⟨[], _, rfl, ih⟩
      | cls k => exact ⟨f k, _, rfl, h k List.mem_cons_self, ih⟩

/-- A pattern with an empty class matches nothing. -/
theorem not_matches_of_empty {k : κ} (hk : ∀ c, ¬ mem k c) : ∀ {ts : List (Token α κ)} {s : List α}, cls k ∈ ts →
    ¬ Matches mem ts s
  | t :: ts, s, h, hm => by
      cases t with
      | lit c =>
          obtain ⟨r, -, hm⟩ := hm
          exact not_matches_of_empty hk (List.mem_of_ne_of_mem (by simp) h) hm
      | one =>
          obtain ⟨c, r, -, hm⟩ := hm
          exact not_matches_of_empty hk (List.mem_of_ne_of_mem (by simp) h) hm
      | many =>
          obtain ⟨u, r, -, hm⟩ := hm
          exact not_matches_of_empty hk (List.mem_of_ne_of_mem (by simp) h) hm
      | cls k' =>
          obtain ⟨c, r, -, hc, hm⟩ := hm
          rcases List.mem_cons.mp h with he | h
          · rw [Token.cls.injEq] at he
            exact hk c (he ▸ hc)
          · exact not_matches_of_empty hk h hm

end Glob
