import AetherOptExt.Lib.Text

/-! # Cutting UTF-8 text at a byte

A program that works on the bytes of a text may cut it only where a character begins or at its
end (`isCharBoundary`); `sliceTo` and `sliceFrom` are the checked cuts, `none` when the place is
out of bounds or inside a character.  A text can be cut behind every one of its prefixes
(`sliceTo_append`, `sliceFrom_append`), and an ASCII byte stands for its character wherever it
is found (`findIdx_utf8`), so that a search for one finds such a place. -/

namespace Str

/-- A byte that continues a character. -/
def isContinuation (b : UInt8) : Bool := decide (0x80 ≤ b.toNat ∧ b.toNat < 0xc0)

/-- May the bytes be cut before the byte at `i`? -/
def isCharBoundary (bs : List UInt8) (i : ℕ) : Bool :=
  match bs[i]? with
  | some b => i == 0 || !isContinuation b
  | none => i == bs.length

/-- `bs[..i]`. -/
def sliceTo (bs : List UInt8) (i : ℕ) : Option (List UInt8) := if isCharBoundary bs i then some (bs.take i) else none

/-- `bs[i..]`. -/
def sliceFrom (bs : List UInt8) (i : ℕ) : Option (List UInt8) :=
  if isCharBoundary bs i then some (bs.drop i) else none

/-! ### The bytes of a character -/

/-- A character is one ASCII byte, or a larger one; the bytes after the first continue it. -/
theorem utf8EncodeChar_eq (c : Char) : ∃ b bs, String.utf8EncodeChar c = b :: bs ∧ isContinuation b = false ∧
    (∀ x ∈ bs, isContinuation x = true) ∧
    ((c.toNat < 128 ∧ b = UInt8.ofNat c.toNat ∧ bs = []) ∨ (128 ≤ c.toNat ∧ 128 ≤ b.toNat)) := by
  have hof : ∀ n < 256, (UInt8.ofNat n).toNat = n := fun n hn => by simp [Nat.mod_eq_of_lt hn]
  have hfirst : ∀ n < 256, (n < 128 ∨ 192 ≤ n) → isContinuation (UInt8.ofNat n) = false := by
    intro n h₁ h₂
    unfold isContinuation
    rw [hof n h₁, decide_eq_false_iff_not]
    omega
  have hnext : ∀ n, isContinuation (UInt8.ofNat (n % 64 + 128)) = true := by
    intro n
    unfold isContinuation
    rw [hof _ (by omega), decide_eq_true_eq]
    omega
  have hmax : c.val.toNat < 0x110000 := by
    have := c.valid
    simp only [UInt32.isValidChar, Nat.isValidChar] at this
    omega
  unfold String.utf8EncodeChar Char.toNat
  generalize c.val.toNat = v at hmax
  dsimp only
  split_ifs with h₁ h₂ h₃
  · exact ⟨_, _, rfl, hfirst v (by omega) (by omega), by simp, .inl ⟨by omega, rfl, rfl⟩⟩
  · refine ⟨_, _, rfl, hfirst _ (by omega) (by omega), ?_, .inr ⟨by omega, ?_⟩⟩
    · exact List.forall_mem_singleton.mpr (hnext v)
    · rw [hof _ (by omega)]
      omega
  · refine ⟨_, _, rfl, hfirst _ (by omega) (by omega), ?_, .inr ⟨by omega, ?_⟩⟩
    · exact List.forall_mem_cons.mpr ⟨hnext (v / 64), List.forall_mem_singleton.mpr (hnext v)⟩
    · rw [hof _ (by omega)]
      omega
  · refine ⟨_, _, rfl, hfirst _ (by omega) (by omega), ?_, .inr ⟨by omega, ?_⟩⟩
    · exact List.forall_mem_cons.mpr ⟨hnext (v / 4096),
        List.forall_mem_cons.mpr ⟨hnext (v / 64), List.forall_mem_singleton.mpr (hnext v)⟩⟩
    · rw [hof _ (by omega)]
      omega

/-- No text begins with a continuation. -/
theorem head_utf8 {s : Str} {b : UInt8} {bs : List UInt8} (h : utf8 s = b :: bs) : isContinuation b = false := by
  cases s with
  | nil => cases h
  | cons c s =>
      obtain ⟨d, ds, he, hd, -⟩ := utf8EncodeChar_eq c
      rw [utf8_cons, he] at h
      obtain ⟨rfl, -⟩ := List.cons.inj h
      exact hd

/-! ### Cuts behind a prefix -/

theorem isCharBoundary_append (s t : Str) : isCharBoundary (utf8 (s ++ t)) (byteLen s) = true := by
  unfold isCharBoundary
  rw [utf8_append, List.getElem?_append_right (by exact le_rfl)]
  have hsub : byteLen s - (utf8 s).length = 0 := Nat.sub_self _
  rw [hsub]
  cases ht : utf8 t with
  | nil => simp [byteLen]
  | cons b bs =>
      have hb := head_utf8 ht
      simp [hb]

theorem sliceTo_append (s t : Str) : sliceTo (utf8 (s ++ t)) (byteLen s) = some (utf8 s) := by
  unfold sliceTo
  rw [if_pos (isCharBoundary_append s t), utf8_append]
  congr 1
  exact List.take_left

theorem sliceFrom_append (s t : Str) : sliceFrom (utf8 (s ++ t)) (byteLen s) = some (utf8 t) := by
  unfold sliceFrom
  rw [if_pos (isCharBoundary_append s t), utf8_append]
  congr 1
  exact List.drop_left

/-! ### Comparing bytes -/

theorem utf8_injective {s t : Str} (h : utf8 s = utf8 t) : s = t :=
  Option.some.inj ((fromUtf8_eq_some_iff.mpr rfl).symm.trans (fromUtf8_eq_some_iff.mpr h.symm))

theorem utf8_eq_nil {s : Str} : utf8 s = [] ↔ s = [] := by
  rw [← List.length_eq_zero_iff]
  exact byteLen_eq_zero

/-- Where the bytes of a text begin with those of another, the text does. -/
theorem utf8_prefix_iff : ∀ {s t : Str}, utf8 s <+: utf8 t ↔ s <+: t
  | [], t => by simp
  | c :: s, [] => by
      rw [utf8_nil, List.prefix_nil, utf8_eq_nil, List.prefix_nil]
  | c :: s, d :: t => by
      constructor
      · rintro ⟨r, hr⟩
        have hc : (utf8 (d :: t)).toByteArray.utf8DecodeChar? 0 = some c := by
          rw [← hr, utf8_cons, List.append_assoc, List.toByteArray_append]
          exact ByteArray.utf8DecodeChar?_utf8EncodeChar_append
        have hd : (utf8 (d :: t)).toByteArray.utf8DecodeChar? 0 = some d := by
          rw [utf8_cons, List.toByteArray_append]
          exact ByteArray.utf8DecodeChar?_utf8EncodeChar_append
        obtain rfl := Option.some.inj (hc.symm.trans hd)
        rw [utf8_cons, utf8_cons, List.append_assoc] at hr
        have ih := utf8_prefix_iff.mp ⟨r, List.append_cancel_left hr⟩
        exact List.cons_prefix_cons.mpr ⟨rfl, ih⟩
      · exact utf8_prefix

/-- Where the bytes of a text end with those of another, the text does. -/
theorem utf8_suffix_iff {s : Str} : ∀ {t : Str}, utf8 s <:+ utf8 t ↔ s <:+ t
  | [] => by
      rw [utf8_nil, List.suffix_nil, utf8_eq_nil, List.suffix_nil]
  | d :: t => by
      constructor
      · rintro ⟨r, hr⟩
        obtain ⟨b, bs, he, -, hbs, -⟩ := utf8EncodeChar_eq d
        rw [utf8_cons, he, List.cons_append] at hr
        cases r with
        | nil =>
            rw [List.nil_append, ← List.cons_append, ← he, ← utf8_cons] at hr
            rw [utf8_injective hr]
        | cons x r =>
            have hr : r ++ utf8 s = bs ++ utf8 t := (List.cons.inj hr).2
            -- the bytes of `s` begin in those of `t`, or among the continuations of `d`
            rcases List.append_eq_append_iff.mp hr with ⟨u, rfl, hu⟩ | ⟨u, rfl, hu⟩
            · cases u with
              | nil => exact (utf8_suffix_iff.mp ⟨[], hu⟩).trans (List.suffix_cons d t)
              | cons y u =>
                  have hy := hbs y (by simp)
                  rw [head_utf8 hu] at hy
                  cases hy
            · exact (utf8_suffix_iff.mp ⟨u, hu.symm⟩).trans (List.suffix_cons d t)
      · exact utf8_suffix

/-! ### Searching for an ASCII character -/

/-- The byte of an ASCII character is found in the texts that hold the character. -/
theorem mem_utf8 {a : Char} (ha : a.toNat < 128) {s : Str} : UInt8.ofNat a.toNat ∈ utf8 s ↔ a ∈ s := by
  have hof : ∀ c : Char, c.toNat < 128 → (UInt8.ofNat c.toNat).toNat = c.toNat := fun c hc => by
    simp [Nat.mod_eq_of_lt (show c.toNat < 256 by omega)]
  have hchar : ∀ c : Char, UInt8.ofNat a.toNat ∈ String.utf8EncodeChar c ↔ a = c := by
    intro c
    obtain ⟨b, bs, he, -, hbs, hb⟩ := utf8EncodeChar_eq c
    rw [he, List.mem_cons]
    constructor
    · rintro (h | h)
      · rcases hb with ⟨hc, rfl, -⟩ | ⟨-, hb⟩
        · have hn := congrArg UInt8.toNat h
          rw [hof a ha, hof c hc] at hn
          exact Char.toNat_inj.mp hn
        · rw [← h, hof a ha] at hb
          omega
      · have hx := hbs _ h
        unfold isContinuation at hx
        rw [hof a ha, decide_eq_true_eq] at hx
        omega
    · rintro rfl
      rcases hb with ⟨-, rfl, -⟩ | ⟨hge, -⟩
      · exact .inl rfl
      · omega
  unfold utf8
  rw [List.mem_flatMap]
  constructor
  · rintro ⟨c, hc, h⟩
    exact (hchar c).mp h ▸ hc
  · exact fun h => ⟨a, h, (hchar a).mpr rfl⟩

theorem findIdx_utf8_none {a : Char} (ha : a.toNat < 128) {s : Str} (hs : a ∉ s) :
    (utf8 s).findIdx? (· == UInt8.ofNat a.toNat) = none := by
  rw [List.findIdx?_eq_none_iff]
  intro b hb
  rw [beq_eq_false_iff_ne]
  rintro rfl
  exact hs ((mem_utf8 ha).mp hb)

/-- The search for the byte stops behind the text before the character. -/
theorem findIdx_utf8 {a : Char} (ha : a.toNat < 128) {s t : Str} (hs : a ∉ s) :
    (utf8 (s ++ a :: t)).findIdx? (· == UInt8.ofNat a.toNat) = some (byteLen s) := by
  have hfirst : utf8 (a :: t) = UInt8.ofNat a.toNat :: utf8 t := by
    obtain ⟨b, bs, he, -, -, ⟨-, rfl, rfl⟩ | ⟨hge, -⟩⟩ := utf8EncodeChar_eq a
    · rw [utf8_cons, he]
      rfl
    · omega
  rw [utf8_append, List.findIdx?_append, findIdx_utf8_none ha hs, hfirst, List.findIdx?_cons]
  simp [byteLen]

end Str
