import AetherOptExt.Lib.Text

/-! # Words and numerals in a text

Reading a line of a text file is trimming it, splitting it at separators and converting what is
left.  `words p` splits at the letters with `p` and leaves out the empty pieces; it sends
concatenation at a separator to concatenation of lists (`words_append_cons`), which makes it the
inverse of writing words one after the other (`words_intercalate`).  A `Numeral` is a text of
decimal digits with the number it denotes. -/

namespace Str

/-- A text of white space. -/
def Blank (s : Str) : Prop := ∀ c ∈ s, isWhitespace c = true

instance (s : Str) : Decidable (Blank s) := List.decidableBAll (fun c => isWhitespace c = true) s

/-! ### Trimming -/

theorem rdropWhile_append_of_pos {α : Type*} {p : α → Bool} {s b : List α} (hb : ∀ c ∈ b, p c = true) :
    (s ++ b).rdropWhile p = s.rdropWhile p := by
  unfold List.rdropWhile
  rw [List.reverse_append, List.dropWhile_append_of_pos fun c hc => hb c (List.mem_reverse.mp hc)]

/-- White space around a text is trimmed. -/
theorem trim_padded {a s b : Str} (ha : Blank a) (hb : Blank b) : trim (a ++ s ++ b) = trim s := by
  unfold trim
  rw [List.append_assoc, List.dropWhile_append_of_pos ha, List.dropWhile_append]
  split_ifs with h
  · rw [List.isEmpty_iff.mp h, List.dropWhile_eq_nil_iff.mpr hb]
  · exact rdropWhile_append_of_pos hb

/-- A text that begins and ends with other letters is trimmed already. -/
theorem trim_of_ends {s : Str} (h₁ : ∀ c ∈ s.head?, isWhitespace c = false)
    (h₂ : ∀ c ∈ s.getLast?, isWhitespace c = false) : trim s = s := by
  cases s with
  | nil => rfl
  | cons c s =>
      have hd : (c :: s).dropWhile isWhitespace = c :: s := by
        rw [List.dropWhile_cons_of_neg]
        simpa using h₁ c rfl
      unfold trim
      rw [hd, List.rdropWhile_eq_self_iff]
      intro hne
      simpa using h₂ _ (List.getLast?_eq_getLast_of_ne_nil hne)

/-- White space before a letter is trimmed, the letter is not. -/
theorem trim_append_cons {a s : Str} {c : Char} (ha : Blank a) (hc : isWhitespace c = false) :
    trim (a ++ c :: s) = c :: s.rdropWhile isWhitespace := by
  unfold trim
  rw [List.dropWhile_append_of_pos ha, List.dropWhile_cons_of_neg (by simp [hc])]
  unfold List.rdropWhile
  rw [List.reverse_cons, List.dropWhile_append]
  split_ifs with h
  · rw [List.isEmpty_iff.mp h, List.dropWhile_cons_of_neg (by simp [hc])]
    rfl
  · rw [List.reverse_append]
    rfl

/-- Trimming takes away white space at the two ends. -/
theorem exists_padded (s : Str) : ∃ a b, Blank a ∧ Blank b ∧ s = a ++ trim s ++ b := by
  have hends : ∀ t : Str, t = t.rdropWhile isWhitespace ++ (t.reverse.takeWhile isWhitespace).reverse := by
    intro t
    unfold List.rdropWhile
    rw [← List.reverse_append, List.takeWhile_append_dropWhile, List.reverse_reverse]
  refine ⟨s.takeWhile isWhitespace, ((s.dropWhile isWhitespace).reverse.takeWhile isWhitespace).reverse,
    fun c hc => List.mem_takeWhile_imp hc, fun c hc => List.mem_takeWhile_imp (List.mem_reverse.mp hc), ?_⟩
  rw [List.append_assoc]
  unfold trim
  rw [← hends, List.takeWhile_append_dropWhile]

/-! ### Words -/

section

variable {α : Type*} {p : α → Bool} {s t : List α} {c : α}

/-- The pieces between the letters with `p`, without the empty ones. -/
def words (p : α → Bool) (s : List α) : List (List α) := (s.splitOnP p).filter (fun w => !w.isEmpty)

theorem words_append_cons (hc : p c = true) : words p (s ++ c :: t) = words p s ++ words p t := by
  unfold words
  rw [List.splitOnP_append_cons s t hc, List.filter_append]

theorem words_of_forall (hs : ∀ c ∈ s, p c = false) : words p s = [s].filter (fun w => !w.isEmpty) := by
  unfold words
  rw [List.splitOnP_eq_singleton hs]

theorem words_self (hs : ∀ c ∈ s, p c = false) (hne : s ≠ []) : words p s = [s] := by
  rw [words_of_forall hs]
  simpa using hne

theorem words_nil : words p [] = [] := by
  simp [words]

/-- Separators at the end are no words. -/
theorem words_append_separators : ∀ {b : List α}, (∀ c ∈ b, p c = true) → ∀ s, words p (s ++ b) = words p s
  | [], _, s => by rw [List.append_nil]
  | c :: b, hb, s => by
      have ih := words_append_separators (fun d hd => hb d (List.mem_cons_of_mem c hd)) ([] : List α)
      rw [words_append_cons (hb c List.mem_cons_self)]
      rw [List.nil_append, words_nil] at ih
      rw [ih, List.append_nil]

/-- Separators before a text are no words. -/
theorem words_separators_append : ∀ {a : List α}, (∀ c ∈ a, p c = true) → ∀ s, words p (a ++ s) = words p s
  | [], _, s => rfl
  | c :: a, ha, s => by
      have ih := words_separators_append (fun d hd => ha d (List.mem_cons_of_mem c hd)) s
      have hcons : words p ([] ++ c :: (a ++ s)) = words p [] ++ words p (a ++ s) :=
        words_append_cons (ha c List.mem_cons_self)
      rw [List.nil_append, words_nil, List.nil_append] at hcons
      rw [List.cons_append, hcons, ih]

/-- Pieces that are each closed by a separator are split at it. -/
theorem splitOn_terminated [DecidableEq α] {sep : α} : ∀ {ps : List (List α)}, (∀ l ∈ ps, sep ∉ l) →
    (ps.flatMap (fun l => l ++ [sep])).splitOn sep = ps ++ [[]]
  | [], _ => by simp
  | l :: ps, h => by
      have ih := splitOn_terminated fun m hm => h m (List.mem_cons_of_mem l hm)
      rw [List.flatMap_cons, List.append_assoc, List.singleton_append,
        List.splitOn_append_cons_self_of_not_mem (h l List.mem_cons_self), ih]
      rfl

theorem eq_or_exists_of_mem_intercalate {sep : α} : ∀ {ls : List (List α)}, c ∈ [sep].intercalate ls →
    c = sep ∨ ∃ l ∈ ls, c ∈ l
  | [], h => absurd h List.not_mem_nil
  | [l], h => by
      rw [List.intercalate_singleton] at h
      exact .inr ⟨l, List.mem_cons_self, h⟩
  | l :: m :: ls, h => by
      rw [List.intercalate_cons_cons, List.mem_append, List.mem_append, List.mem_singleton] at h
      obtain (h | rfl) | h := h
      · exact .inr ⟨l, List.mem_cons_self, h⟩
      · exact .inl rfl
      · refine (eq_or_exists_of_mem_intercalate h).imp_right ?_
        rintro ⟨k, hk, hc⟩
        exact ⟨k, List.mem_cons_of_mem l hk, hc⟩

/-- What is written with separators in between is read back, as far as it is not empty. -/
theorem words_intercalate {sep : α} (hsep : p sep = true) : ∀ {ls : List (List α)},
    (∀ l ∈ ls, ∀ c ∈ l, p c = false) → words p ([sep].intercalate ls) = ls.filter (fun w => !w.isEmpty)
  | [], _ => words_nil
  | [l], h => by rw [List.intercalate_singleton, words_of_forall (h l List.mem_cons_self)]
  | l :: m :: ls, h => by
      have ih : words p ([sep].intercalate (m :: ls)) = (m :: ls).filter (fun w => !w.isEmpty) :=
        words_intercalate hsep fun k hk => h k (List.mem_cons_of_mem l hk)
      rw [List.intercalate_cons_cons, List.append_assoc, List.singleton_append, words_append_cons hsep, ih,
        words_of_forall (h l List.mem_cons_self), ← List.filter_append, List.singleton_append]

/-- A loop over the pieces that passes over empty ones is a loop over the words. -/
theorem flatMap_splitOnP {β : Type*} {f : List α → List β} (hf : f [] = []) (s : List α) :
    (s.splitOnP p).flatMap f = (words p s).flatMap f := by
  unfold words
  induction s.splitOnP p with
  | nil => rfl
  | cons w ws ih =>
      rw [List.flatMap_cons, ih]
      cases w with
      | nil => rw [hf, List.nil_append, List.filter_cons_of_neg (by simp)]
      | cons d w => rw [List.filter_cons_of_pos (by simp), List.flatMap_cons]

end

/-- A text and its trimmed form have the same words when its white space separates words. -/
theorem words_trim {p : Char → Bool} {s : Str} (h : ∀ c ∈ s, isWhitespace c = true → p c = true) :
    words p (trim s) = words p s := by
  obtain ⟨a, b, ha, hb, hs⟩ := exists_padded s
  have hap : ∀ c ∈ a, p c = true := by
    intro c hc
    refine h c ?_ (ha c hc)
    rw [hs]
    exact List.mem_append_left b (List.mem_append_left _ hc)
  have hbp : ∀ c ∈ b, p c = true := by
    intro c hc
    refine h c ?_ (hb c hc)
    rw [hs]
    exact List.mem_append_right _ hc
  conv_rhs => rw [hs]
  rw [words_append_separators hbp, words_separators_append hap]

/-! ### Numerals -/

theorem not_isWhitespace_of_isDigit {c : Char} (h : c.isDigit = true) : isWhitespace c = false := by
  have h₁ : 48 ≤ c.toNat ∧ c.toNat ≤ 57 := by
    simpa [Char.isDigit, UInt32.le_iff_toNat_le] using h
  unfold isWhitespace
  simp only [Bool.or_eq_false_iff, Bool.and_eq_false_iff, decide_eq_false_iff_not, beq_eq_false_iff_ne]
  omega

/-- A decimal numeral; zeros in front are allowed. -/
structure Numeral where
  digits : Str
  nonempty : digits ≠ []
  isDigit : ∀ c ∈ digits, c.isDigit = true

namespace Numeral

/-- The number that is denoted. -/
def value (n : Numeral) : ℕ := Nat.ofDigitChars 10 n.digits 0

/-- The usual numeral of a number. -/
def ofNat (n : ℕ) : Numeral where
  digits := Nat.toDigits 10 n
  nonempty := Nat.toDigits_ne_nil
  isDigit _ hc := Nat.isDigit_of_mem_toDigits (by decide) (by decide) hc

@[simp] theorem value_ofNat (n : ℕ) : (ofNat n).value = n := Nat.ofDigitChars_ten_toDigits

/-- A character that is no digit is in no numeral. -/
theorem notMem (n : Numeral) {c : Char} (hc : c.isDigit = false) : c ∉ n.digits := by
  intro h
  rw [n.isDigit c h] at hc
  cases hc

theorem not_isWhitespace (n : Numeral) {c : Char} (h : c ∈ n.digits) : isWhitespace c = false :=
  not_isWhitespace_of_isDigit (n.isDigit c h)

end Numeral

end Str
