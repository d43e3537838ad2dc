import AetherOptExt.CpuRanges

/-! # The grammar of CPU lists

A CPU list as it is written in rules and in `/sys`: parts separated by commas, each with white
space around it and each blank, a numeral or two numerals with a dash between them, in either
order.  `parse_cpu_ranges` reads such a text as the set of the numbers its parts denote, as far
as they are below 1024 and present (`isSet_parseCpuRanges_text`).  Blank parts denote nothing,
and a comma between two texts is union (`parseCpuRanges_append`). -/

namespace AetherOptExt

open Str

/-- A numeral below `usize::MAX`. -/
structure CpuNumeral extends Numeral where
  small : toNumeral.value < usizeMax

/-- What a part of a list says. -/
inductive CpuPart where
  | blank
  | single (n : CpuNumeral)
  | range (a b : CpuNumeral)

namespace CpuPart

/-- The text of the part. -/
def text : CpuPart → Str
  | blank => []
  | single n => n.digits
  | range a b => a.digits ++ '-' :: b.digits

/-- The CPUs of the part. -/
def Denotes : CpuPart → ℕ → Prop
  | blank, _ => False
  | single n, i => i = n.value
  | range a b, i => min a.value b.value ≤ i ∧ i ≤ max a.value b.value

end CpuPart

/-- A part with the white space around it. -/
structure WrittenPart where
  before : Str
  part : CpuPart
  after : Str
  blank_before : Blank before
  blank_after : Blank after

/-- The text between two commas. -/
def WrittenPart.text (w : WrittenPart) : Str := w.before ++ w.part.text ++ w.after

/-- The text of a list. -/
def cpuListText (ws : List WrittenPart) : Str := [','].intercalate (ws.map WrittenPart.text)

/-! ### Numerals -/

theorem parseUsize_numeral (n : Numeral) (h : n.value ≤ usizeMax) : parseUsize n.digits = some n.value := by
  have hall : n.digits.all Char.isDigit = true := List.all_eq_true.mpr n.isDigit
  have hval : n.digits.foldl (fun n c => 10 * n + (c.toNat - 48)) 0 = n.value := rfl
  have hplus := n.notMem (c := '+') rfl
  have hne := n.nonempty
  unfold parseUsize
  split
  · rename_i rest he
    exact absurd (he ▸ List.mem_cons_self) hplus
  · simp only [hval, hall, List.isEmpty_eq_false_iff.mpr hne, Bool.not_true, Bool.or_false, Bool.false_eq_true,
      if_false, h, if_true]

theorem findIdx_dash (n : Numeral) : n.digits.findIdx? (· == '-') = none := by
  rw [List.findIdx?_eq_none_iff]
  intro c hc
  rw [beq_eq_false_iff_ne]
  rintro rfl
  exact n.notMem rfl hc

/-! ### One part -/

theorem CpuPart.partRange_single (n : CpuNumeral) : partRange n.digits = some (n.value, n.value) := by
  have hmax : n.value ≠ usizeMax := n.small.ne
  unfold partRange
  rw [findIdx_dash]
  simp only [parseUsize_numeral _ n.small.le, Option.getD_some, hmax, if_false]

theorem CpuPart.partRange_range (a b : CpuNumeral) :
    partRange (a.digits ++ '-' :: b.digits) = some (min a.value b.value, max a.value b.value) := by
  have hmax : a.value ≠ usizeMax := a.small.ne
  have hfind : (a.digits ++ '-' :: b.digits).findIdx? (· == '-') = some a.digits.length := by
    rw [List.findIdx?_append, findIdx_dash]
    simp [List.findIdx?_cons]
  have hdrop : (a.digits ++ '-' :: b.digits).drop (a.digits.length + 1) = b.digits := by
    rw [← List.drop_drop, List.drop_left, List.drop_succ_cons, List.drop_zero]
  unfold partRange
  rw [hfind]
  simp only [List.take_left, hdrop, parseUsize_numeral _ a.small.le, parseUsize_numeral _ b.small.le,
    Option.getD_some, hmax, if_false]
  split_ifs with hlt
  · rw [min_eq_right hlt.le, max_eq_left hlt.le]
  · rw [min_eq_left (not_lt.mp hlt), max_eq_right (not_lt.mp hlt)]

/-- The characters of a part: digits and the dash. -/
theorem CpuPart.mem_text {p : CpuPart} {c : Char} (h : c ∈ p.text) : c.isDigit = true ∨ c = '-' := by
  cases p with
  | blank => exact absurd h List.not_mem_nil
  | single n => exact .inl (n.isDigit c h)
  | range a b =>
      rcases List.mem_append.mp h with h | h
      · exact .inl (a.isDigit c h)
      · rcases List.mem_cons.mp h with rfl | h
        · exact .inr rfl
        · exact .inl (b.isDigit c h)

theorem CpuPart.trim_text (p : CpuPart) : trim p.text = p.text := by
  refine trim_of_forall fun c hc => ?_
  rcases p.mem_text hc with h | rfl
  · exact not_isWhitespace_of_isDigit h
  · decide

theorem WrittenPart.comma_notMem (w : WrittenPart) : ',' ∉ w.text := by
  have hblank : ∀ s : Str, Blank s → ',' ∉ s := fun s hs hc => absurd (hs _ hc) (by decide)
  unfold WrittenPart.text
  rw [List.mem_append, List.mem_append]
  rintro ((h | h) | h)
  · exact hblank _ w.blank_before h
  · rcases w.part.mem_text h with h | h
    · exact absurd h (by decide)
    · exact absurd h (by decide)
  · exact hblank _ w.blank_after h

/-- The parser reads a part as what it denotes. -/
theorem WrittenPart.partHas_text (w : WrittenPart) (i : ℕ) : partHas w.text i = true ↔ w.part.Denotes i := by
  unfold partHas WrittenPart.text
  rw [trim_padded w.blank_before w.blank_after, CpuPart.trim_text]
  cases w.part with
  | blank => exact iff_of_false Bool.false_ne_true id
  | single n =>
      rw [CpuPart.text, CpuPart.partRange_single, Option.any_some, decide_eq_true_eq]
      exact ⟨fun h => le_antisymm h.2 h.1, fun h => ⟨h.ge, h.le⟩⟩
  | range a b =>
      rw [CpuPart.text, CpuPart.partRange_range, Option.any_some, decide_eq_true_eq]
      exact Iff.rfl

/-! ### Lists -/

/-- The CPUs that the parser reads in a list. -/
theorem isSet_parseCpuRanges_text (ws : List WrittenPart) (present : Option CpuSet) (i : ℕ) :
    (parseCpuRanges (cpuListText ws) present).isSet i = true ↔
      i < cpuSetsize ∧ allowed present i = true ∧ ∃ w ∈ ws, w.part.Denotes i := by
  have hany : ((cpuListText ws).splitOn ',').any (partHas · i) = true ↔ ∃ w ∈ ws, w.part.Denotes i := by
    by_cases hws : ws = []
    · subst hws
      simp [cpuListText, partHas_nil]
    · have hsplit : (cpuListText ws).splitOn ',' = ws.map WrittenPart.text := by
        refine List.splitOn_intercalate ',' (fun t ht => ?_) (by simpa using hws)
        obtain ⟨w, -, rfl⟩ := List.mem_map.mp ht
        exact w.comma_notMem
      rw [hsplit, List.any_map, List.any_eq_true]
      simp only [Function.comp_apply, WrittenPart.partHas_text]
  rw [isSet_parseCpuRanges, Bool.and_eq_true, Bool.and_eq_true, hany, decide_eq_true_eq]
  tauto

/-- A comma between two texts is union. -/
theorem parseCpuRanges_append (s t : Str) (present : Option CpuSet) :
    parseCpuRanges (s ++ ',' :: t) present = (parseCpuRanges s present).or (parseCpuRanges t present) := by
  apply CpuSet.ext_isSet
  intro i _
  rw [CpuSet.isSet_or, isSet_parseCpuRanges, isSet_parseCpuRanges, isSet_parseCpuRanges,
    List.splitOn_append_cons_self, List.any_append, ← Bool.and_or_distrib_right]

/-- **Parsing a CPU list denotes the written ranges**, and a comma is union. -/
theorem parseCpuRanges_denotes (ws : List WrittenPart) (present : Option CpuSet) :
    (∀ i, (parseCpuRanges (cpuListText ws) present).isSet i = true ↔
      i < 1024 ∧ (∀ p ∈ present, p.isSet i = true) ∧ ∃ w ∈ ws, w.part.Denotes i) ∧
    ∀ vs : List WrittenPart, parseCpuRanges (cpuListText vs ++ ',' :: cpuListText ws) present =
      (parseCpuRanges (cpuListText vs) present).or (parseCpuRanges (cpuListText ws) present) := by
  refine ⟨fun i => ?_, fun vs => parseCpuRanges_append _ _ present⟩
  rw [isSet_parseCpuRanges_text]
  refine and_congr_right fun _ => and_congr_left fun _ => ?_
  unfold allowed
  cases present with
  | none => simp
  | some p => simp

/-- A reversed range with zeros in front, white space and a blank part. -/
example : cpuListText
    [⟨" ".toList, .range ⟨⟨"09".toList, by decide, List.all_eq_true.mp rfl⟩, by decide⟩
        ⟨⟨"7".toList, by decide, List.all_eq_true.mp rfl⟩, by decide⟩, "\t".toList, by decide, by decide⟩,
      ⟨[], .blank, " ".toList, by decide, by decide⟩] = " 09-7\t, ".toList := by
  decide

end AetherOptExt
