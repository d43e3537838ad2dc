import AetherOptExt.CpuSet
import AetherOptExt.Lib.IntRuns
import AetherOptExt.Lib.Lexeme

/-! # The textual form of a CPU set

`toRangeString` scans the sixteen words of a mask and prints its maximal runs; the scan is an
instance of `IntRuns.Scanned`, whose moves are the branches of `rangeBit` and `rangeWord`
(`prints_rangeBit`, `prints_rangeWord`).  `parseCpuRanges` is the union of the ranges its
parts denote, cut down to the present CPUs (`isSet_parseCpuRanges`).

Together they are a codec: printing is canonical and parsing undoes it.  The printed form of
a mask is also the name of its cpuset directory; only the empty mask has the empty name. -/

namespace AetherOptExt

open IntRuns

namespace CpuSet

/-! ### Printing -/

/-- The text of one run. -/
def printRun (r : NonemptyInterval ℕ) : Str :=
  if r.fst == r.snd then decimal r.fst else decimal r.fst ++ '-' :: decimal r.snd

/-- The text of a list of runs. -/
def printRuns (l : List (NonemptyInterval ℕ)) : Str := [','].intercalate (l.map printRun)

/-- The printer has written the closed runs and remembers the open one. -/
structure Prints (a : RangeAcc) (closed : List (NonemptyInterval ℕ))
    (opened : Option (NonemptyInterval ℕ)) : Prop where
  result : a.result = printRuns closed
  start : a.start = opened.map (·.fst)
  stop : a.stop = opened.map (·.snd)
  first : a.first = closed.isEmpty

variable {a : RangeAcc} {closed : List (NonemptyInterval ℕ)} {opened : Option (NonemptyInterval ℕ)}
  {r : NonemptyInterval ℕ} {n base bit : ℕ} {w : BitVec 64} {p : ℕ → Prop}

theorem printRuns_append_singleton : ∀ l : List (NonemptyInterval ℕ),
    printRuns (l ++ [r]) = printRuns l ++ (if l.isEmpty then [] else [',']) ++ printRun r
  | [] => by simp [printRuns, List.intercalate_singleton]
  | [b] => by simp [printRuns, List.intercalate_cons_cons]
  | b :: c :: l => by
      have ih := printRuns_append_singleton (c :: l)
      simp only [printRuns, List.cons_append, List.map_cons, List.intercalate_cons_cons] at ih ⊢
      rw [ih]
      simp

theorem Prints.pushRange (h : Prints a closed (some r)) :
    (pushRange a).result = printRuns (closed ++ [r]) ∧
      (pushRange a).first = (closed ++ [r]).isEmpty := by
  obtain ⟨h₁, h₂, h₃, h₄⟩ := h
  simp only [Option.map_some] at h₂ h₃
  constructor
  · simp only [CpuSet.pushRange, h₂, h₃, h₁, h₄, printRuns_append_singleton]
    rfl
  · simp [CpuSet.pushRange, h₂, h₃]

/-- The final call of `push_range` writes the open run, if there is one. -/
theorem Prints.final (h : Prints a closed opened) :
    (CpuSet.pushRange a).result = printRuns (closed ++ opened.toList) := by
  cases opened with
  | none =>
      obtain ⟨h₁, h₂, -, -⟩ := h
      simp only [Option.map_none] at h₂
      simp only [CpuSet.pushRange, h₂, h₁, Option.toList_none, List.append_nil]
  | some r => exact h.pushRange.1

/-- One bit: the run goes on, another one is opened, or the CPU is passed over. -/
theorem prints_rangeBit (h : Prints a closed opened) (hs : Scanned p (base + bit) closed opened)
    (hbit : bit < 64) (hp : p (base + bit) ↔ w.getLsbD bit = true) :
    ∃ closed' opened', Prints (rangeBit base w a bit) closed' opened' ∧
      Scanned p (base + (bit + 1)) closed' opened' := by
  unfold rangeBit
  rw [and_shift_ne_zero w hbit]
  by_cases hw : w.getLsbD bit = true
  · rw [if_pos hw]
    have hn : p (base + bit) := hp.mpr hw
    cases opened with
    | none =>
        refine ⟨closed, some (NonemptyInterval.pure (base + bit)), ?_, hs.opens hn⟩
        simp only [h.start, Option.map_none]
        exact ⟨h.result, rfl, rfl, h.first⟩
    | some r =>
        have hlt : r.snd < base + bit := hs.opened_lt r rfl
        by_cases he : base + bit = r.snd + 1
        · rw [he] at hs hn
          refine ⟨closed, _, ?_, (show base + (bit + 1) = r.snd + 2 by omega) ▸ hs.extend rfl hn⟩
          simp only [h.start, h.stop, Option.map_some, Option.any_some, he, beq_self_eq_true, if_true]
          exact ⟨h.result, rfl, rfl, h.first⟩
        · refine ⟨closed ++ [r], some (NonemptyInterval.pure (base + bit)), ?_,
            (hs.close (by omega)).opens hn⟩
          have hb : (base + bit == r.snd + 1) = false := by simpa using he
          obtain ⟨h₁, h₂⟩ := h.pushRange
          simp only [h.start, h.stop, Option.map_some, Option.any_some, hb, Bool.false_eq_true, if_false]
          exact ⟨h₁, rfl, rfl, h₂⟩
  · rw [if_neg hw]
    refine ⟨closed, opened, h, hs.skip (by omega) fun i h₁ h₂ => ?_⟩
    obtain rfl : i = base + bit := by omega
    exact fun hi => hw (hp.mp hi)

theorem prints_foldl_rangeBit (h : Prints a closed opened) (hs : Scanned p base closed opened)
    (hp : ∀ bit, bit < 64 → (p (base + bit) ↔ w.getLsbD bit = true)) :
    ∀ n, n ≤ 64 → ∃ closed' opened', Prints ((List.range n).foldl (rangeBit base w) a) closed' opened' ∧
      Scanned p (base + n) closed' opened'
  | 0, _ => ⟨closed, opened, h, hs⟩
  | n + 1, hn => by
      obtain ⟨closed', opened', h', hs'⟩ := prints_foldl_rangeBit h hs hp n (by omega)
      rw [List.range_succ, List.foldl_append]
      exact prints_rangeBit h' hs' (by omega) (hp n (by omega))

/-- One word. -/
theorem prints_rangeWord {k : ℕ} (h : Prints a closed opened) (hs : Scanned p (k * 64) closed opened)
    (hp : ∀ bit, bit < 64 → (p (k * 64 + bit) ↔ w.getLsbD bit = true)) :
    ∃ closed' opened', Prints (rangeWord a (w, k)) closed' opened' ∧
      Scanned p ((k + 1) * 64) closed' opened' := by
  have hk : (k + 1) * 64 = k * 64 + 64 := by omega
  rw [hk]
  unfold rangeWord
  by_cases hw : w = 0
  · subst hw
    have hskip : Scanned p (k * 64 + 64) closed opened := by
      refine hs.skip (by omega) fun i h₁ h₂ hi => ?_
      obtain ⟨bit, rfl⟩ := Nat.exists_eq_add_of_le h₁
      simpa using (hp bit (by omega)).mp hi
    simp only [beq_self_eq_true, if_true, h.start, Option.isSome_map]
    cases opened with
    | none => exact ⟨closed, none, h, hskip⟩
    | some r =>
        have hlt : r.snd < k * 64 := hs.opened_lt r rfl
        obtain ⟨h₁, h₂⟩ := h.pushRange
        exact ⟨closed ++ [r], none, ⟨h₁, rfl, rfl, h₂⟩, hskip.close (by omega)⟩
  · have hne : (w == 0) = false := by simpa using hw
    simp only [hne, Bool.false_eq_true, if_false]
    exact prints_foldl_rangeBit h hs hp 64 le_rfl

theorem prints_foldl_rangeWord : ∀ (ws : List (BitVec 64)) (k : ℕ) (a : RangeAcc)
    (closed : List (NonemptyInterval ℕ)) (opened : Option (NonemptyInterval ℕ)),
    Prints a closed opened → Scanned p (k * 64) closed opened →
    (∀ j bit, j < ws.length → bit < 64 → (p ((k + j) * 64 + bit) ↔ (ws.getD j 0).getLsbD bit = true)) →
    ∃ closed' opened', Prints ((ws.zipIdx k).foldl rangeWord a) closed' opened' ∧
      Scanned p ((k + ws.length) * 64) closed' opened'
  | [], k, a, closed, opened, h, hs, _ => ⟨closed, opened, h, hs⟩
  | w :: ws, k, a, closed, opened, h, hs, hp => by
      obtain ⟨closed₁, opened₁, h₁, hs₁⟩ := prints_rangeWord (w := w) h hs fun bit hbit => by
        simpa using hp 0 bit (by simp) hbit
      obtain ⟨closed₂, opened₂, h₂, hs₂⟩ := prints_foldl_rangeWord ws (k + 1) _ closed₁ opened₁ h₁ hs₁
        fun j bit hj hbit => by
          have := hp (j + 1) bit (by simpa using hj) hbit
          rw [show k + 1 + j = k + (j + 1) by omega, this, List.getD_cons_succ]
      refine ⟨closed₂, opened₂, h₂, ?_⟩
      rw [List.length_cons, show k + (ws.length + 1) = k + 1 + ws.length by omega]
      exact hs₂

theorem isSet_word (s : CpuSet) {k bit : ℕ} (hk : k < 16) (hbit : bit < 64) :
    s.isSet (k * 64 + bit) = (s.bits.getD k 0).getLsbD bit := by
  have hlt : k * 64 + bit < cpuSetsize := by
    show k * 64 + bit < 1024
    omega
  rw [isSet_eq, word, show (k * 64 + bit) / cpuWordBits = k by show (k * 64 + bit) / 64 = k; omega,
    show (k * 64 + bit) % 64 = bit by omega]
  simp [hlt]

/-- The printer writes the maximal runs of the mask, in increasing order. -/
theorem toRangeString_runs (s : CpuSet) :
    ∃ l, s.toRangeString = printRuns l ∧ Separated l ∧ ∀ i, Covers l i ↔ s.isSet i = true := by
  have hstart : Prints ⟨[], none, none, true⟩ [] none := ⟨rfl, rfl, rfl, rfl⟩
  obtain ⟨closed, opened, h, hs⟩ := prints_foldl_rangeWord (p := fun i => s.isSet i = true) s.bits 0 _ [] none
    hstart Scanned.start fun j bit hj hbit => by
      rw [Nat.zero_add, s.isSet_word (by rw [s.size] at hj; exact hj) hbit]
  refine ⟨closed ++ opened.toList, h.final, hs.sep, fun i => ?_⟩
  rw [hs.covers, s.size]
  exact ⟨fun hi => hi.2, fun hi => ⟨isSet_lt hi, hi⟩⟩

/-- Only the empty mask is printed as the empty text. -/
theorem toRangeString_eq_nil {s : CpuSet} : s.toRangeString = [] ↔ s = new := by
  constructor
  · intro h
    obtain ⟨l, hl, -, hc⟩ := s.toRangeString_runs
    rw [h] at hl
    have hnil : l = [] := by
      cases l with
      | nil => rfl
      | cons r l =>
          have hr : printRun r ≠ [] := by
            unfold printRun decimal
            split_ifs
            · exact Nat.toDigits_ne_nil
            · simp
          cases l with
          | nil =>
              rw [printRuns, List.map_singleton, List.intercalate_singleton] at hl
              exact absurd hl.symm hr
          | cons b l => simp [printRuns, List.intercalate_cons_cons] at hl
    subst hnil
    apply ext_isSet
    intro i _
    rw [isSet_new, Bool.eq_false_iff]
    intro hi
    obtain ⟨r, hr, -⟩ := (hc i).mpr hi
    exact List.not_mem_nil hr
  · rintro rfl
    decide

end CpuSet

/-! ### Parsing -/

open CpuSet

/-- Does the part of a list denote the CPU `i`? -/
def partHas (part : Str) (i : ℕ) : Bool :=
  (partRange (Str.trim part)).any (fun b => decide (b.1 ≤ i ∧ i ≤ b.2))

/-- May the CPU be set?  Without a present set every one may. -/
def allowed (present : Option CpuSet) (i : ℕ) : Bool := present.all (fun p => p.isSet i)

theorem partHas_nil (i : ℕ) : partHas [] i = false := rfl

theorem isSet_foldl_set (present : Option CpuSet) (i : ℕ) : ∀ (l : List ℕ) (s : CpuSet),
    (l.foldl (fun set i => if present.all (fun p => p.isSet i) then set.set i else set) s).isSet i =
      (s.isSet i || (decide (i ∈ l) && (allowed present i && decide (i < cpuSetsize))))
  | [], s => by simp
  | c :: l, s => by
      rw [List.foldl_cons, isSet_foldl_set present i l]
      by_cases hc : i = c
      · subst hc
        by_cases ha : allowed present i = true
        · have ha' : present.all (fun p => p.isSet i) = true := ha
          rw [if_pos ha', isSet_set]
          simp only [ha, decide_true, Bool.true_and, List.mem_cons, true_or]
          cases decide (i ∈ l) <;> simp
        · have ha' : ¬ present.all (fun p => p.isSet i) = true := ha
          rw [if_neg ha']
          simp [ha]
      · have hstep : (if present.all (fun p => p.isSet c) then s.set c else s).isSet i = s.isSet i := by
          split_ifs
          · rw [isSet_set]
            simp [hc]
          · rfl
        rw [hstep]
        simp [hc]

theorem isSet_setRange (present : Option CpuSet) (s : CpuSet) (lo hi i : ℕ) :
    (setRange present s lo hi).isSet i =
      (s.isSet i || (decide (lo ≤ i ∧ i ≤ hi) && (allowed present i && decide (i < cpuSetsize)))) := by
  unfold setRange
  rw [isSet_foldl_set]
  by_cases hi' : i < cpuSetsize
  · have hmem : i ∈ List.range' lo (min hi (cpuSetsize - 1) + 1 - lo) ↔ lo ≤ i ∧ i ≤ hi := by
      rw [List.mem_range'_1]
      have : i < 1024 := hi'
      show lo ≤ i ∧ i < lo + (min hi 1023 + 1 - lo) ↔ _
      omega
    simp only [hmem]
  · simp [hi']

theorem isSet_parsePart (present : Option CpuSet) (s : CpuSet) (part : Str) (i : ℕ) :
    (parsePart present s part).isSet i =
      (s.isSet i || (partHas part i && (allowed present i && decide (i < cpuSetsize)))) := by
  unfold parsePart partHas
  by_cases he : (Str.trim part).isEmpty = true
  · rw [if_pos he, List.isEmpty_iff.mp he]
    have hnone : partRange [] = none := rfl
    simp [hnone]
  · rw [if_neg he]
    cases hb : partRange (Str.trim part) with
    | none => simp
    | some b =>
        obtain ⟨lo, hi⟩ := b
        simp only [Option.any_some]
        exact isSet_setRange present s lo hi i

theorem isSet_foldl_parsePart (present : Option CpuSet) (i : ℕ) : ∀ (parts : List Str) (s : CpuSet),
    (parts.foldl (parsePart present) s).isSet i =
      (s.isSet i || (parts.any (partHas · i) && (allowed present i && decide (i < cpuSetsize))))
  | [], s => by simp
  | part :: parts, s => by
      rw [List.foldl_cons, isSet_foldl_parsePart present i parts, isSet_parsePart, List.any_cons,
        Bool.or_assoc, ← Bool.and_or_distrib_right]

/-- The parser yields the CPUs some part denotes, as far as they are present and in range. -/
theorem isSet_parseCpuRanges (spec : Str) (present : Option CpuSet) (i : ℕ) :
    (parseCpuRanges spec present).isSet i =
      ((spec.splitOn ',').any (partHas · i) && (allowed present i && decide (i < cpuSetsize))) := by
  unfold parseCpuRanges
  by_cases he : spec = []
  · subst he
    simp [partHas_nil]
  · have hne : spec.isEmpty = false := by simpa using he
    rw [hne, if_neg Bool.false_ne_true, isSet_foldl_parsePart, isSet_new, Bool.false_or]

/-! ### Reading a printed list -/

theorem decimal_isDigit {n : ℕ} {c : Char} (h : c ∈ decimal n) : c.isDigit = true :=
  Nat.isDigit_of_mem_toDigits (by decide) (by decide) h

theorem parseUsize_decimal {n : ℕ} (h : n ≤ usizeMax) : parseUsize (decimal n) = some n := by
  have hall : (decimal n).all Char.isDigit = true := List.all_eq_true.mpr fun c hc => decimal_isDigit hc
  have hne : decimal n ≠ [] := Nat.toDigits_ne_nil
  have hval : (decimal n).foldl (fun n c => 10 * n + (c.toNat - 48)) 0 = n := Nat.ofDigitChars_ten_toDigits
  cases hd : decimal n with
  | nil => exact absurd hd hne
  | cons c cs =>
      have hc : c ≠ '+' := by
        rintro rfl
        have := decimal_isDigit (n := n) (c := '+') (by rw [hd]; exact List.mem_cons_self)
        exact absurd this (by decide)
      rw [hd] at hall hval
      unfold parseUsize
      split
      · rename_i rest he
        exact absurd (List.cons.inj he).1 hc
      · simp only [hval, hall, List.isEmpty_cons, Bool.not_true, Bool.or_false, Bool.false_eq_true,
          if_false, h, if_true]

/-- The characters of a printed run: digits and the dash. -/
theorem mem_printRun {r : NonemptyInterval ℕ} {c : Char} (h : c ∈ printRun r) :
    c.isDigit = true ∨ c = '-' := by
  unfold printRun at h
  split_ifs at h
  · exact .inl (decimal_isDigit h)
  · rcases List.mem_append.mp h with h | h
    · exact .inl (decimal_isDigit h)
    · rcases List.mem_cons.mp h with rfl | h
      · exact .inr rfl
      · exact .inl (decimal_isDigit h)

theorem trim_printRun (r : NonemptyInterval ℕ) : Str.trim (printRun r) = printRun r := by
  refine Str.trim_of_forall fun c hc => ?_
  rcases mem_printRun hc with h | rfl
  · exact Str.not_isWhitespace_of_isDigit h
  · decide

theorem comma_not_mem_printRun (r : NonemptyInterval ℕ) : ',' ∉ printRun r := by
  intro h
  rcases mem_printRun h with h | h
  · exact absurd h (by decide)
  · exact absurd h (by decide)

/-- A printed run is read back as its two bounds. -/
theorem partRange_printRun {r : NonemptyInterval ℕ} (h : r.snd < usizeMax) :
    partRange (printRun r) = some (r.fst, r.snd) := by
  have hle := r.fst_le_snd
  have hnodash : ∀ n, ∀ c ∈ decimal n, (c == '-') = false := by
    intro n c hc
    rw [beq_eq_false_iff_ne]
    rintro rfl
    exact absurd (decimal_isDigit hc) (by decide)
  have hfst : parseUsize (decimal r.fst) = some r.fst := parseUsize_decimal (hle.trans h.le)
  have hsnd : parseUsize (decimal r.snd) = some r.snd := parseUsize_decimal h.le
  have hmax : r.fst ≠ usizeMax := (lt_of_le_of_lt hle h).ne
  unfold printRun
  by_cases he : r.fst = r.snd
  · have hfind : (decimal r.fst).findIdx? (· == '-') = none := List.findIdx?_eq_none_iff.mpr (hnodash _)
    rw [if_pos (by simpa using he), partRange]
    simp only [hfind, hfst, Option.getD_some, hmax, if_false]
    rw [← he]
  · have hfind : (decimal r.fst ++ '-' :: decimal r.snd).findIdx? (· == '-') =
        some (decimal r.fst).length := by
      rw [List.findIdx?_append, List.findIdx?_eq_none_iff.mpr (hnodash _)]
      simp [List.findIdx?_cons]
    have hnlt : ¬ r.snd < r.fst := not_lt.mpr hle
    have hdrop : (decimal r.fst ++ '-' :: decimal r.snd).drop ((decimal r.fst).length + 1) = decimal r.snd := by
      rw [← List.drop_drop, List.drop_left, List.drop_succ_cons, List.drop_zero]
    rw [if_neg (by simpa using he), partRange]
    simp only [hfind, List.take_left, hdrop, hfst, hsnd, Option.getD_some, hmax, hnlt, if_false]

theorem partHas_printRun {r : NonemptyInterval ℕ} (h : r.snd < usizeMax) (i : ℕ) :
    partHas (printRun r) i = decide (r.fst ≤ i ∧ i ≤ r.snd) := by
  rw [partHas, trim_printRun, partRange_printRun h, Option.any_some]

/-- The parts of a printed list denote the CPUs of its runs. -/
theorem any_partHas_printRuns {l : List (NonemptyInterval ℕ)} (h : ∀ r ∈ l, r.snd < usizeMax) (i : ℕ) :
    ((printRuns l).splitOn ',').any (partHas · i) = true ↔ Covers l i := by
  by_cases hl : l = []
  · subst hl
    simp [printRuns, partHas_nil, Covers]
  · have hsplit : (printRuns l).splitOn ',' = l.map printRun := by
      refine List.splitOn_intercalate ',' (fun t ht => ?_) (by simpa using hl)
      obtain ⟨r, -, rfl⟩ := List.mem_map.mp ht
      exact comma_not_mem_printRun r
    rw [hsplit, List.any_map, List.any_eq_true]
    constructor
    · rintro ⟨r, hr, hi⟩
      rw [Function.comp_apply, partHas_printRun (h r hr), decide_eq_true_eq] at hi
      exact ⟨r, hr, hi⟩
    · rintro ⟨r, hr, hi⟩
      refine ⟨r, hr, ?_⟩
      rw [Function.comp_apply, partHas_printRun (h r hr), decide_eq_true_eq]
      exact hi

/-- What the parser reads of a printed mask: its CPUs, as far as they are present. -/
theorem isSet_parse_toRangeString (s : CpuSet) (present : Option CpuSet) (i : ℕ) :
    (parseCpuRanges s.toRangeString present).isSet i = (s.isSet i && allowed present i) := by
  obtain ⟨l, hl, -, hc⟩ := s.toRangeString_runs
  have hmax : ∀ r ∈ l, r.snd < usizeMax := by
    intro r hr
    have hlt : r.snd < cpuSetsize := isSet_lt ((hc r.snd).mp ⟨r, hr, r.fst_le_snd, le_rfl⟩)
    exact lt_trans hlt (by decide)
  have hany : ((printRuns l).splitOn ',').any (partHas · i) = s.isSet i := by
    rw [Bool.eq_iff_iff, any_partHas_printRuns hmax, hc]
  rw [isSet_parseCpuRanges, hl, hany]
  cases hs : s.isSet i with
  | false => rfl
  | true => simp [isSet_lt hs]

/-- Parsing a printed mask yields the mask. -/
theorem parse_toRangeString (s : CpuSet) : parseCpuRanges s.toRangeString none = s := by
  apply ext_isSet
  intro i _
  rw [isSet_parse_toRangeString]
  exact Bool.and_true _

/-! ### The codec -/

/-- **Printing and parsing masks.**  The printed form of a mask lists its maximal runs in
increasing order, and is empty for the empty mask only.  Parsing it yields the mask again, or
its intersection with the present CPUs. -/
theorem toRangeString_codec (s : CpuSet) :
    (∃ l, s.toRangeString = printRuns l ∧ Separated l ∧
      ∀ r, r ∈ l ↔ IsMaximal (fun i => s.isSet i = true) r) ∧
    (s.toRangeString = [] ↔ s = CpuSet.new) ∧
    parseCpuRanges s.toRangeString none = s ∧
    ∀ p i, (parseCpuRanges s.toRangeString (some p)).isSet i = (s.isSet i && p.isSet i) := by
  refine ⟨?_, toRangeString_eq_nil, parse_toRangeString s, fun p i => isSet_parse_toRangeString s (some p) i⟩
  obtain ⟨l, hl, hsep, hc⟩ := s.toRangeString_runs
  exact ⟨l, hl, hsep, fun r => hsep.mem_iff_isMaximal hc⟩

-- A run across a word boundary and one that ends at the last CPU.
example : (fromRange "62-65, 1023,5".toList).toRangeString = "5,62-65,1023".toList := by decide +kernel

end AetherOptExt
