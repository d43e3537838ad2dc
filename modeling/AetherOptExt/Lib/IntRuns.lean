import Mathlib.Order.Interval.Basic
import Mathlib.Data.List.Pairwise
import Mathlib.Data.List.Sort
import Mathlib.Order.Nat

/-! # The maximal runs of a set of numbers

A set of natural numbers given by a predicate `p` is written as the list of its maximal runs:
closed intervals in increasing order with a gap of at least one number between neighbours
(`Separated`).  Such a list is determined by what it covers: its intervals are exactly the
maximal runs (`Separated.mem_iff_isMaximal`, `Separated.eq_of_covers`).  The runs of a list of
numbers cover its members, and are separated when the list increases (`runs`).

A scan builds the list from below and holds the last run open while it may still grow.
`Scanned p n closed opened` says that the scan has seen the numbers below `n`; the lemmas
after it are the moves of such a scan. -/

namespace IntRuns

variable {p : ℕ → Prop} {n : ℕ} {l : List (NonemptyInterval ℕ)} {r : NonemptyInterval ℕ}

/-- The numbers of the intervals of a list. -/
def Covers (l : List (NonemptyInterval ℕ)) (i : ℕ) : Prop := ∃ r ∈ l, r.fst ≤ i ∧ i ≤ r.snd

/-- Increasing intervals, no two of which overlap or touch. -/
def Separated (l : List (NonemptyInterval ℕ)) : Prop := l.Pairwise (fun a b => a.snd + 1 < b.fst)

/-- A run of `p` that cannot be made longer. -/
structure IsMaximal (p : ℕ → Prop) (r : NonemptyInterval ℕ) : Prop where
  holds : ∀ i, r.fst ≤ i → i ≤ r.snd → p i
  before : ∀ i, i + 1 = r.fst → ¬ p i
  after : ¬ p (r.snd + 1)

theorem covers_append {l l' : List (NonemptyInterval ℕ)} {i : ℕ} :
    Covers (l ++ l') i ↔ Covers l i ∨ Covers l' i := by
  simp only [Covers, List.mem_append, or_and_right, exists_or]

theorem covers_singleton {i : ℕ} : Covers [r] i ↔ r.fst ≤ i ∧ i ≤ r.snd := by
  simp [Covers]

theorem Separated.eq_or_gap (h : Separated l) {a b : NonemptyInterval ℕ} (ha : a ∈ l) (hb : b ∈ l) :
    a = b ∨ a.snd + 1 < b.fst ∨ b.snd + 1 < a.fst := by
  induction l with
  | nil => exact absurd ha List.not_mem_nil
  | cons c l ih =>
      obtain ⟨hc, hl⟩ := List.pairwise_cons.mp h
      rcases List.mem_cons.mp ha with rfl | ha'
      · rcases List.mem_cons.mp hb with rfl | hb'
        · exact .inl rfl
        · exact .inr (.inl (hc b hb'))
      · rcases List.mem_cons.mp hb with rfl | hb'
        · exact .inr (.inr (hc a ha'))
        · exact ih hl ha' hb'

/-- Two maximal runs that share a number are equal. -/
theorem IsMaximal.eq {a b : NonemptyInterval ℕ} (ha : IsMaximal p a) (hb : IsMaximal p b) {i : ℕ}
    (hai : a.fst ≤ i ∧ i ≤ a.snd) (hbi : b.fst ≤ i ∧ i ≤ b.snd) : a = b := by
  have fst_le : ∀ {c d : NonemptyInterval ℕ}, IsMaximal p c → IsMaximal p d →
      c.fst ≤ i ∧ i ≤ c.snd → d.fst ≤ i ∧ i ≤ d.snd → c.fst ≤ d.fst := by
    intro c d hc hd hci hdi
    by_contra hlt
    obtain ⟨j, hj⟩ : ∃ j, j + 1 = c.fst := ⟨c.fst - 1, by omega⟩
    exact hc.before j hj (hd.holds j (by omega) (by omega))
  have snd_le : ∀ {c d : NonemptyInterval ℕ}, IsMaximal p c → IsMaximal p d →
      c.fst ≤ i ∧ i ≤ c.snd → d.fst ≤ i ∧ i ≤ d.snd → c.snd ≤ d.snd := by
    intro c d hc hd hci hdi
    by_contra hlt
    exact hd.after (hc.holds (d.snd + 1) (by omega) (by omega))
  apply NonemptyInterval.ext
  exact Prod.ext (le_antisymm (fst_le ha hb hai hbi) (fst_le hb ha hbi hai))
    (le_antisymm (snd_le ha hb hai hbi) (snd_le hb ha hbi hai))

theorem Separated.isMaximal (h : Separated l) (hr : r ∈ l) : IsMaximal (Covers l) r where
  holds i h₁ h₂ := ⟨r, hr, h₁, h₂⟩
  before := by
    rintro i hi ⟨a, ha, ha₁, ha₂⟩
    have hle := r.fst_le_snd
    rcases h.eq_or_gap ha hr with rfl | hgap | hgap
    · omega
    · omega
    · omega
  after := by
    rintro ⟨a, ha, ha₁, ha₂⟩
    have hle := r.fst_le_snd
    rcases h.eq_or_gap ha hr with rfl | hgap | hgap
    · omega
    · omega
    · omega

/-- The intervals of a separated list are the maximal runs of what it covers. -/
theorem Separated.mem_iff_isMaximal (h : Separated l) (hp : ∀ i, Covers l i ↔ p i) :
    r ∈ l ↔ IsMaximal p r := by
  obtain rfl : Covers l = p := funext fun i => propext (hp i)
  constructor
  · exact h.isMaximal
  · intro hr
    obtain ⟨a, ha, hai⟩ := hr.holds r.fst le_rfl r.fst_le_snd
    obtain rfl := (h.isMaximal ha).eq hr hai ⟨le_rfl, r.fst_le_snd⟩
    exact ha

/-- A separated list is determined by what it covers. -/
theorem Separated.eq_of_covers {l' : List (NonemptyInterval ℕ)} (h : Separated l) (h' : Separated l')
    (hc : ∀ i, Covers l i ↔ Covers l' i) : l = l' := by
  have hirrefl : Std.Irrefl (fun a b : NonemptyInterval ℕ => a.snd + 1 < b.fst) := by
    refine ⟨fun a (ha : a.snd + 1 < a.fst) => ?_⟩
    have := a.fst_le_snd
    omega
  have hantisymm : Std.Antisymm (fun a b : NonemptyInterval ℕ => a.snd + 1 < b.fst) := by
    refine ⟨fun a b (hab : a.snd + 1 < b.fst) (hba : b.snd + 1 < a.fst) => ?_⟩
    have := a.fst_le_snd
    have := b.fst_le_snd
    omega
  refine List.Pairwise.eq_of_mem_iff h h' fun r => ?_
  rw [h.mem_iff_isMaximal hc, h'.mem_iff_isMaximal fun i => Iff.rfl]

/-! ### The runs of a list -/

/-- The run `r` and the runs of the numbers after it; a number extends a run when it follows its end. -/
def runsFrom (r : NonemptyInterval ℕ) : List ℕ → List (NonemptyInterval ℕ)
  | [] => [r]
  | c :: cs =>
      if h : c = r.snd + 1 then runsFrom ⟨(r.fst, c), h ▸ r.fst_le_snd.trans (Nat.le_succ _)⟩ cs
      else r :: runsFrom (NonemptyInterval.pure c) cs

/-- The runs of a list of numbers. -/
def runs : List ℕ → List (NonemptyInterval ℕ)
  | [] => []
  | c :: cs => runsFrom (NonemptyInterval.pure c) cs

theorem covers_cons {i : ℕ} : Covers (r :: l) i ↔ (r.fst ≤ i ∧ i ≤ r.snd) ∨ Covers l i := by
  simp only [Covers, List.exists_mem_cons_iff]

theorem covers_runsFrom {i : ℕ} : ∀ (cs : List ℕ) (r : NonemptyInterval ℕ),
    Covers (runsFrom r cs) i ↔ (r.fst ≤ i ∧ i ≤ r.snd) ∨ i ∈ cs
  | [], r => by simp [runsFrom, covers_singleton]
  | c :: cs, r => by
      have hle := r.fst_le_snd
      rw [runsFrom]
      split_ifs with h
      · rw [covers_runsFrom cs, List.mem_cons]
        show (r.fst ≤ i ∧ i ≤ c) ∨ i ∈ cs ↔ _
        by_cases hi : i ∈ cs
        · simp [hi]
        · simp only [hi, or_false]
          omega
      · rw [covers_cons, covers_runsFrom cs, List.mem_cons]
        have hpure : (NonemptyInterval.pure c).fst ≤ i ∧ i ≤ (NonemptyInterval.pure c).snd ↔ i = c :=
          ⟨fun h => le_antisymm h.2 h.1, fun h => ⟨h.ge, h.le⟩⟩
        rw [hpure]

/-- The runs cover the members of the list. -/
theorem covers_runs {i : ℕ} : ∀ cs : List ℕ, Covers (runs cs) i ↔ i ∈ cs
  | [] => by simp [runs, Covers]
  | c :: cs => by
      rw [runs, covers_runsFrom, List.mem_cons]
      exact or_congr_left ⟨fun h => le_antisymm h.2 h.1, fun h => ⟨h.ge, h.le⟩⟩

theorem fst_le_of_mem_runsFrom : ∀ {cs : List ℕ} {r : NonemptyInterval ℕ}, (∀ c ∈ cs, r.snd < c) →
    cs.Pairwise (· < ·) → ∀ a ∈ runsFrom r cs, r.fst ≤ a.fst
  | [], r, _, _, a, ha => by
      rw [List.mem_singleton.mp ha]
  | c :: cs, r, hlt, hs, a, ha => by
      obtain ⟨hc, hs⟩ := List.pairwise_cons.mp hs
      have hrc := hlt c List.mem_cons_self
      have hle := r.fst_le_snd
      rw [runsFrom] at ha
      split_ifs at ha with h
      · exact fst_le_of_mem_runsFrom (r := ⟨(r.fst, c), _⟩) hc hs a ha
      · rcases List.mem_cons.mp ha with rfl | ha
        · exact le_rfl
        · have ih : c ≤ a.fst := fst_le_of_mem_runsFrom (r := NonemptyInterval.pure c) hc hs a ha
          omega

theorem separated_runsFrom : ∀ {cs : List ℕ} {r : NonemptyInterval ℕ}, (∀ c ∈ cs, r.snd < c) →
    cs.Pairwise (· < ·) → Separated (runsFrom r cs)
  | [], r, _, _ => List.pairwise_singleton _ _
  | c :: cs, r, hlt, hs => by
      obtain ⟨hc, hs⟩ := List.pairwise_cons.mp hs
      have hrc := hlt c List.mem_cons_self
      rw [runsFrom]
      split_ifs with h
      · exact separated_runsFrom (r := ⟨(r.fst, c), _⟩) hc hs
      · refine List.pairwise_cons.mpr ⟨fun a ha => ?_, separated_runsFrom (r := NonemptyInterval.pure c) hc hs⟩
        have hca : c ≤ a.fst := fst_le_of_mem_runsFrom (r := NonemptyInterval.pure c) hc hs a ha
        omega

/-- The runs of an increasing list are separated. -/
theorem separated_runs : ∀ {cs : List ℕ}, cs.Pairwise (· < ·) → Separated (runs cs)
  | [], _ => List.Pairwise.nil
  | c :: cs, h => by
      obtain ⟨hc, hs⟩ := List.pairwise_cons.mp h
      exact separated_runsFrom (r := NonemptyInterval.pure c) hc hs

/-! ### Scanning upwards -/

/-- The runs found among the numbers below `n`: those that are closed and the open one. -/
structure Scanned (p : ℕ → Prop) (n : ℕ) (closed : List (NonemptyInterval ℕ))
    (opened : Option (NonemptyInterval ℕ)) : Prop where
  sep : Separated (closed ++ opened.toList)
  covers : ∀ i, Covers (closed ++ opened.toList) i ↔ i < n ∧ p i
  closed_lt : ∀ a ∈ closed, a.snd + 1 < n
  opened_lt : ∀ a ∈ opened, a.snd < n

namespace Scanned

variable {closed : List (NonemptyInterval ℕ)} {opened : Option (NonemptyInterval ℕ)}

theorem start : Scanned p 0 [] none where
  sep := List.Pairwise.nil
  covers i := by simp [Covers]
  closed_lt a ha := absurd ha List.not_mem_nil
  opened_lt a ha := absurd ha (by simp)

/-- Numbers without `p` are passed over. -/
theorem skip (h : Scanned p n closed opened) {m : ℕ} (hm : n ≤ m) (hp : ∀ i, n ≤ i → i < m → ¬ p i) :
    Scanned p m closed opened where
  sep := h.sep
  covers i := by
    rw [h.covers]
    constructor
    · rintro ⟨hi, hpi⟩
      exact ⟨lt_of_lt_of_le hi hm, hpi⟩
    · rintro ⟨hi, hpi⟩
      exact ⟨lt_of_not_ge fun hn => hp i hn hi hpi, hpi⟩
  closed_lt a ha := lt_of_lt_of_le (h.closed_lt a ha) hm
  opened_lt a ha := lt_of_lt_of_le (h.opened_lt a ha) hm

/-- The open run is closed once a number has been passed over. -/
theorem close (h : Scanned p n closed (some r)) (hr : r.snd + 1 < n) :
    Scanned p n (closed ++ [r]) none where
  sep := by simpa using h.sep
  covers i := by simpa using h.covers i
  closed_lt a ha := by
    rcases List.mem_append.mp ha with ha | ha
    · exact h.closed_lt a ha
    · rw [List.mem_singleton.mp ha]
      exact hr
  opened_lt a ha := absurd ha (by simp)

/-- A number with `p` opens a run. -/
theorem opens (h : Scanned p n closed none) (hn : p n) :
    Scanned p (n + 1) closed (some (NonemptyInterval.pure n)) where
  sep := by
    have hs := h.sep
    rw [Option.toList_none, List.append_nil] at hs
    refine List.pairwise_append.mpr ⟨hs, List.pairwise_singleton _ _, fun a ha b hb => ?_⟩
    obtain rfl := List.mem_singleton.mp hb
    exact h.closed_lt a ha
  covers i := by
    have hc := h.covers i
    rw [Option.toList_none, List.append_nil] at hc
    rw [covers_append, hc, Option.toList_some, covers_singleton]
    constructor
    · rintro (⟨hi, hpi⟩ | ⟨h₁, h₂⟩)
      · exact ⟨by omega, hpi⟩
      · obtain rfl : i = n := le_antisymm h₂ h₁
        exact ⟨by omega, hn⟩
    · rintro ⟨hi, hpi⟩
      rcases Nat.lt_succ_iff_lt_or_eq.mp hi with hlt | rfl
      · exact .inl ⟨hlt, hpi⟩
      · exact .inr ⟨le_rfl, le_rfl⟩
  closed_lt a ha := (h.closed_lt a ha).trans (Nat.lt_succ_self n)
  opened_lt a ha := by
    obtain rfl := Option.some.inj ha
    exact Nat.lt_succ_self n

/-- The next number extends the open run. -/
theorem extend (h : Scanned p (n + 1) closed (some r)) (hr : r.snd = n) (hn : p (n + 1)) :
    Scanned p (n + 2) closed (some ⟨(r.fst, n + 1), (r.fst_le_snd.trans hr.le).trans (Nat.le_succ n)⟩) where
  sep := by
    obtain ⟨h₁, -, h₃⟩ := List.pairwise_append.mp h.sep
    refine List.pairwise_append.mpr ⟨h₁, List.pairwise_singleton _ _, fun a ha b hb => ?_⟩
    obtain rfl := List.mem_singleton.mp hb
    exact h₃ a ha r (List.mem_singleton_self r)
  covers i := by
    have hle := r.fst_le_snd
    have hc := h.covers i
    rw [covers_append, Option.toList_some, covers_singleton, hr] at hc
    rw [covers_append, Option.toList_some, covers_singleton]
    constructor
    · rintro (hi | ⟨h₁, h₂⟩)
      · have := hc.mp (.inl hi)
        exact ⟨by omega, this.2⟩
      · rcases Nat.le_succ_iff.mp h₂ with hlt | rfl
        · have := hc.mp (.inr ⟨h₁, hlt⟩)
          exact ⟨by omega, this.2⟩
        · exact ⟨Nat.lt_succ_self _, hn⟩
    · rintro ⟨hi, hpi⟩
      rcases Nat.lt_succ_iff_lt_or_eq.mp hi with hlt | rfl
      · rcases hc.mpr ⟨hlt, hpi⟩ with hi | ⟨h₁, h₂⟩
        · exact .inl hi
        · exact .inr ⟨h₁, h₂.trans (Nat.le_succ n)⟩
      · exact .inr ⟨by show r.fst ≤ n + 1; omega, le_rfl⟩
  closed_lt a ha := (h.closed_lt a ha).trans (Nat.lt_succ_self _)
  opened_lt a ha := by
    obtain rfl := Option.some.inj ha
    exact Nat.lt_succ_self _

end Scanned

end IntRuns
