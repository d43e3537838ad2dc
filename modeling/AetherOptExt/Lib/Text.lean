import Mathlib.Data.List.DropRight
import Mathlib.Data.List.Infix

/-! # Unicode text and its UTF-8 bytes

A text is the list of its Unicode scalar values.  `utf8` gives its bytes, `fromUtf8` is the
checked decoder, and the two are inverse (`fromUtf8_eq_some_iff`).  Prefix and suffix tests
on texts and on bytes agree in the direction programs rely on: `utf8` is a monoid
homomorphism, so it maps prefixes to prefixes and suffixes to suffixes.  Byte lengths are
lengths of `utf8`; on ASCII texts they count characters. -/

/-- A text: its Unicode scalar values in order. -/
abbrev Str := List Char

namespace Str

/-- The UTF-8 bytes of a text. -/
def utf8 (s : Str) : List UInt8 := s.flatMap String.utf8EncodeChar

/-- The length of a text in bytes. -/
def byteLen (s : Str) : ℕ := (utf8 s).length

/-- Unicode white space (the `White_Space` property). -/
def isWhitespace (c : Char) : Bool :=
  (0x9 ≤ c.toNat && c.toNat ≤ 0xd) || c.toNat == 0x20 || c.toNat == 0x85 || c.toNat == 0xa0 ||
    c.toNat == 0x1680 || (0x2000 ≤ c.toNat && c.toNat ≤ 0x200a) || c.toNat == 0x2028 ||
    c.toNat == 0x2029 || c.toNat == 0x202f || c.toNat == 0x205f || c.toNat == 0x3000

/-- The text without leading and trailing white space. -/
def trim (s : Str) : Str := (s.dropWhile isWhitespace).rdropWhile isWhitespace

/-- Decoding with `n` characters of fuel. -/
def fromUtf8Aux : ℕ → List UInt8 → Option Str
  | _, [] => some []
  | 0, _ :: _ => none
  | n + 1, b :: bs =>
      match (b :: bs).toByteArray.utf8DecodeChar? 0 with
      | none => none
      | some c => (fromUtf8Aux n ((b :: bs).drop c.utf8Size)).map (c :: ·)

/-- The text whose UTF-8 bytes are given; `none` when the bytes are not valid UTF-8. -/
def fromUtf8 (bs : List UInt8) : Option Str := fromUtf8Aux bs.length bs

/-! ### Bytes -/

@[simp] theorem utf8_nil : utf8 [] = [] := rfl

@[simp] theorem utf8_append (s t : Str) : utf8 (s ++ t) = utf8 s ++ utf8 t := by
  simp [utf8]

theorem utf8_cons (c : Char) (s : Str) : utf8 (c :: s) = String.utf8EncodeChar c ++ utf8 s := rfl

@[simp] theorem byteLen_append (s t : Str) : byteLen (s ++ t) = byteLen s + byteLen t := by
  simp [byteLen]

theorem byteLen_cons (c : Char) (s : Str) : byteLen (c :: s) = c.utf8Size + byteLen s := by
  simp [byteLen, utf8_cons]

theorem utf8_prefix {s t : Str} (h : s <+: t) : utf8 s <+: utf8 t := by
  obtain ⟨r, rfl⟩ := h
  exact ⟨utf8 r, (utf8_append s r).symm⟩

theorem utf8_suffix {s t : Str} (h : s <:+ t) : utf8 s <:+ utf8 t := by
  obtain ⟨r, rfl⟩ := h
  exact ⟨utf8 r, (utf8_append r s).symm⟩

theorem byteLen_eq_zero {s : Str} : byteLen s = 0 ↔ s = [] := by
  cases s with
  | nil => simp [byteLen]
  | cons c s =>
      have := c.utf8Size_pos
      simp only [byteLen_cons, reduceCtorEq, iff_false]
      omega

/-! ### Decoding -/

theorem fromUtf8Aux_utf8 (s : Str) : ∀ n, byteLen s ≤ n → fromUtf8Aux n (utf8 s) = some s := by
  induction s with
  | nil => intro n _; cases n <;> rfl
  | cons c s ih =>
      intro n hn
      have hpos := c.utf8Size_pos
      have hlen : (String.utf8EncodeChar c).length = c.utf8Size := String.length_utf8EncodeChar c
      rw [byteLen_cons] at hn
      cases n with
      | zero => omega
      | succ n =>
          have hdec : (utf8 (c :: s)).toByteArray.utf8DecodeChar? 0 = some c := by
            rw [utf8_cons, List.toByteArray_append]
            exact ByteArray.utf8DecodeChar?_utf8EncodeChar_append
          have hdrop : (utf8 (c :: s)).drop c.utf8Size = utf8 s := by
            rw [utf8_cons, ← hlen, List.drop_left]
          cases hb : utf8 (c :: s) with
          | nil =>
              have := congrArg List.length hb
              rw [utf8_cons, List.length_append, hlen, List.length_nil] at this
              omega
          | cons b bs =>
              rw [hb] at hdec hdrop
              rw [fromUtf8Aux, hdec]
              show (fromUtf8Aux n ((b :: bs).drop c.utf8Size)).map (c :: ·) = _
              rw [hdrop, ih n (by omega)]
              rfl

theorem utf8_of_fromUtf8Aux : ∀ (n : ℕ) (bs : List UInt8) (s : Str),
    fromUtf8Aux n bs = some s → utf8 s = bs
  | n, [], s, h => by
      obtain rfl : [] = s := by cases n <;> exact Option.some.inj h
      rfl
  | 0, b :: bs, s, h => by simp [fromUtf8Aux] at h
  | n + 1, b :: bs, s, h => by
      rw [fromUtf8Aux] at h
      cases hc : (b :: bs).toByteArray.utf8DecodeChar? 0 with
      | none => simp [hc] at h
      | some c =>
          simp only [hc, Option.map_eq_some_iff] at h
          obtain ⟨t, ht, rfl⟩ := h
          have ih := utf8_of_fromUtf8Aux n _ t ht
          have he := String.toByteArray_utf8EncodeChar_of_utf8DecodeChar?_eq_some hc
          have he' : String.utf8EncodeChar c = (b :: bs).take c.utf8Size := by
            have := congrArg (fun x : ByteArray => x.data.toList) he
            simpa using this
          rw [utf8_cons, ih, he', List.take_append_drop]

/-- The decoder inverts the encoder: it accepts exactly the encodings of texts. -/
theorem fromUtf8_eq_some_iff {bs : List UInt8} {s : Str} :
    fromUtf8 bs = some s ↔ utf8 s = bs := by
  constructor
  · exact utf8_of_fromUtf8Aux _ bs s
  · rintro rfl
    exact fromUtf8Aux_utf8 s _ le_rfl

/-! ### ASCII -/

/-- Every character of the text is ASCII. -/
def IsAscii (s : Str) : Prop := ∀ c ∈ s, c.toNat < 128

instance (s : Str) : Decidable (IsAscii s) := List.decidableBAll (fun c : Char => c.toNat < 128) s

theorem utf8_ascii {s : Str} (h : IsAscii s) : utf8 s = s.map (fun c => UInt8.ofNat c.toNat) := by
  induction s with
  | nil => rfl
  | cons c s ih =>
      have hc : c.toNat ≤ 127 := Nat.le_of_lt_succ (h c List.mem_cons_self)
      have he : String.utf8EncodeChar c = [UInt8.ofNat c.toNat] := by
        unfold String.utf8EncodeChar
        exact if_pos hc
      rw [utf8_cons, he, ih (fun d hd => h d (List.mem_cons_of_mem c hd))]
      rfl

theorem byteLen_ascii {s : Str} (h : IsAscii s) : byteLen s = s.length := by
  simp [byteLen, utf8_ascii h]

theorem IsAscii.of_sublist {s t : Str} (h : IsAscii t) (hs : ∀ c ∈ s, c ∈ t) : IsAscii s :=
  fun c hc => h c (hs c hc)

/-! ### White space -/

/-- The text neither begins nor ends with white space. -/
def Trimmed (s : Str) : Prop := trim s = s

theorem trim_of_forall {s : Str} (h : ∀ c ∈ s, isWhitespace c = false) : trim s = s := by
  have hd : s.dropWhile isWhitespace = s := by
    cases s with
    | nil => rfl
    | cons c s => simp [h c List.mem_cons_self]
  unfold trim
  rw [hd, List.rdropWhile_eq_self_iff]
  intro hne
  simp [h _ (List.getLast_mem hne)]

end Str
