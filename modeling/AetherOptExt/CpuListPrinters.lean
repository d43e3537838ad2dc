import AetherOptExt.Clusters

/-! # The two CPU-list printers

`fmtCpus` prints a list of CPUs as it comes, `toRangeString` prints a mask.  Both write runs:
the first those of the list (`fmtCpus_eq_printRuns`), the second those of the set.  On an
increasing list these are the same runs, since separated runs are determined by what they
cover.  On any list the text denotes the members (`fromRange_fmtCpus`), for the parser takes
the parts in any order. -/

namespace AetherOptExt

open IntRuns CpuSet

theorem CpuSet.isSet_setAll (i : ℕ) : ∀ (cpus : List ℕ) (s : CpuSet),
    (s.setAll cpus).isSet i = true ↔ s.isSet i = true ∨ (i ∈ cpus ∧ i < cpuSetsize)
  | [], s => by simp [setAll]
  | c :: cpus, s => by
      have ih := CpuSet.isSet_setAll i cpus (s.set c)
      unfold setAll at ih ⊢
      rw [List.foldl_cons, ih, isSet_set, Bool.or_eq_true, Bool.and_eq_true, decide_eq_true_eq,
        decide_eq_true_eq, List.mem_cons]
      constructor
      · rintro ((h | ⟨rfl, h⟩) | ⟨h, hlt⟩)
        · exact .inl h
        · exact .inr ⟨.inl rfl, h⟩
        · exact .inr ⟨.inr h, hlt⟩
      · rintro (h | ⟨rfl | h, hlt⟩)
        · exact .inl (.inl h)
        · exact .inl (.inr ⟨rfl, hlt⟩)
        · exact .inr ⟨h, hlt⟩

/-- The set of a list. -/
theorem CpuSet.isSet_new_setAll {cpus : List ℕ} {i : ℕ} :
    (new.setAll cpus).isSet i = true ↔ i ∈ cpus ∧ i < cpuSetsize := by
  rw [isSet_setAll, isSet_new]
  simp

/-! ### The runs of the list -/

theorem fmtParts_eq : ∀ (cs : List ℕ) (r : NonemptyInterval ℕ),
    fmtParts r.fst r.snd cs = (runsFrom r cs).map printRun
  | [], r => rfl
  | c :: cs, r => by
      rw [fmtParts, runsFrom]
      by_cases h : c = r.snd + 1
      · rw [if_pos (beq_iff_eq.mpr h), dif_pos h]
        exact fmtParts_eq cs ⟨(r.fst, c), _⟩
      · rw [if_neg (by simpa using h), dif_neg h, List.map_cons]
        congr 1
        exact fmtParts_eq cs (NonemptyInterval.pure c)

/-- A non-empty list is printed as its runs. -/
theorem fmtCpus_eq_printRuns {l : List ℕ} (h : l ≠ []) : fmtCpus l = printRuns (runs l) := by
  cases l with
  | nil => exact absurd rfl h
  | cons c cs =>
      unfold fmtCpus printRuns runs
      rw [← fmtParts_eq cs (NonemptyInterval.pure c)]
      rfl

/-- The text of a list of CPUs denotes its members. -/
theorem fromRange_fmtCpus {l : List ℕ} (h : l ≠ []) (hlt : ∀ i ∈ l, i < cpuSetsize) :
    fromRange (fmtCpus l) = new.setAll l := by
  have hmax : ∀ r ∈ runs l, r.snd < usizeMax := by
    intro r hr
    have hmem : r.snd ∈ l := (covers_runs l).mp ⟨r, hr, r.fst_le_snd, le_rfl⟩
    exact lt_trans (hlt _ hmem) (by decide)
  apply ext_isSet
  intro i hi
  rw [Bool.eq_iff_iff, isSet_new_setAll, fromRange, isSet_parseCpuRanges, fmtCpus_eq_printRuns h, Bool.and_eq_true,
    any_partHas_printRuns hmax, covers_runs]
  simp [allowed, hi]

/-- On an increasing list the two printers write the same text. -/
theorem fmtCpus_eq_toRangeString {l : List ℕ} (h : l ≠ []) (hlt : ∀ i ∈ l, i < cpuSetsize)
    (hs : l.Pairwise (· < ·)) : fmtCpus l = (new.setAll l).toRangeString := by
  obtain ⟨l', hl', hsep, hcov⟩ := (new.setAll l).toRangeString_runs
  have hsame : runs l = l' := by
    refine (separated_runs hs).eq_of_covers hsep fun i => ?_
    rw [covers_runs, hcov, isSet_new_setAll]
    exact ⟨fun hi => ⟨hi, hlt i hi⟩, fun hi => hi.1⟩
  rw [fmtCpus_eq_printRuns h, hsame, hl']

/-- **The two CPU-list printers agree**, and what the first prints is read back as the set. -/
theorem fmtCpus_agree (l : List ℕ) (hne : l ≠ []) (hlt : ∀ i ∈ l, i < 1024) :
    (l.Pairwise (· < ·) → fmtCpus l = (new.setAll l).toRangeString) ∧ fromRange (fmtCpus l) = new.setAll l :=
  ⟨fmtCpus_eq_toRangeString hne hlt, fromRange_fmtCpus hne hlt⟩

theorem fmtCpus_agree_runs :
    fmtCpus [0, 1, 2, 5] = (new.setAll [0, 1, 2, 5]).toRangeString ∧
      fromRange (fmtCpus [6, 7, 7, 1, 2]) = new.setAll [6, 7, 7, 1, 2] :=
  ⟨(fmtCpus_agree [0, 1, 2, 5] (by decide) (by decide)).1 (by decide),
    (fmtCpus_agree [6, 7, 7, 1, 2] (by decide) (by decide)).2⟩

end AetherOptExt
