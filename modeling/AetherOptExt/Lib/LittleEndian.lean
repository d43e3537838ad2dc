import Mathlib.Data.UInt
import Mathlib.Tactic.Ring

/-! # Little-endian integers in a byte sequence

`encode k n` writes the `k` low bytes of `n`, the lowest first, and `decode` reads a byte
sequence as a number.  Reading what was written gives `n` modulo `256 ^ k` (`decode_encode`),
and writing what was read gives the bytes again (`encode_decode`), so that on `k` bytes the two
are inverse.

A record is a concatenation of such fields.  `word off bs` reads four bytes at an offset, as
an aligned or unaligned 32-bit load does; `word_encode` reads a field back wherever it stands. -/

namespace LittleEndian

/-- The `k` low bytes of `n`, the lowest first. -/
def encode : ℕ → ℕ → List UInt8
  | 0, _ => []
  | k + 1, n => UInt8.ofNat n :: encode k (n / 256)

/-- The number that a byte sequence stands for. -/
def decode : List UInt8 → ℕ
  | [] => 0
  | b :: bs => b.toNat + 256 * decode bs

@[simp] theorem length_encode (k n : ℕ) : (encode k n).length = k := by
  induction k generalizing n with
  | zero => rfl
  | succ k ih => simp [encode, ih]

theorem decode_encode (k n : ℕ) : decode (encode k n) = n % 256 ^ k := by
  induction k generalizing n with
  | zero => simp [encode, decode, Nat.mod_one]
  | succ k ih =>
      have hb : (UInt8.ofNat n).toNat = n % 256 := by simp
      rw [encode, decode, ih, hb, pow_succ, Nat.mul_comm (256 ^ k), Nat.mod_mul]

theorem decode_lt (bs : List UInt8) : decode bs < 256 ^ bs.length := by
  induction bs with
  | nil => simp [decode]
  | cons b bs ih =>
      have hb : b.toNat < 256 := b.toNat_lt
      rw [decode, List.length_cons, pow_succ]
      omega

theorem encode_decode (bs : List UInt8) : encode bs.length (decode bs) = bs := by
  induction bs with
  | nil => rfl
  | cons b bs ih =>
      have hb : b.toNat < 256 := b.toNat_lt
      have hlow : UInt8.ofNat (b.toNat + 256 * decode bs) = b := by
        apply UInt8.toNat_inj.mp
        rw [UInt8.toNat_ofNat']
        omega
      have hrest : (b.toNat + 256 * decode bs) / 256 = decode bs := by omega
      rw [List.length_cons, decode, encode, hlow, hrest, ih]

/-! ### 32-bit words -/

/-- The bytes of a 32-bit word. -/
def ofWord (w : BitVec 32) : List UInt8 := encode 4 w.toNat

/-- The 32-bit word at an offset. -/
def word (off : ℕ) (bs : List UInt8) : BitVec 32 := BitVec.ofNat 32 (decode ((bs.drop off).take 4))

@[simp] theorem length_ofWord (w : BitVec 32) : (ofWord w).length = 4 := length_encode 4 w.toNat

/-- A field is read back wherever it stands. -/
theorem word_append (front : List UInt8) (w : BitVec 32) (back : List UInt8) {off : ℕ}
    (h : front.length = off) : word off (front ++ (ofWord w ++ back)) = w := by
  have htake : ((front ++ (ofWord w ++ back)).drop off).take 4 = ofWord w := by
    rw [← h, List.drop_left, List.take_left' (length_ofWord w)]
  have hw : w.toNat < 256 ^ 4 := w.isLt
  rw [word, htake, ofWord, decode_encode, Nat.mod_eq_of_lt hw]
  exact BitVec.ofNat_toNat 32 w |>.trans (BitVec.setWidth_eq w)

/-- Four bytes are the bytes of the word they hold. -/
theorem ofWord_word (off : ℕ) (bs : List UInt8) (h : off + 4 ≤ bs.length) :
    ofWord (word off bs) = (bs.drop off).take 4 := by
  have hlen : ((bs.drop off).take 4).length = 4 := by simp; omega
  have hlt : decode ((bs.drop off).take 4) < 2 ^ 32 := by
    have hd := decode_lt ((bs.drop off).take 4)
    rw [hlen] at hd
    exact hd
  have he := encode_decode ((bs.drop off).take 4)
  rw [hlen] at he
  rw [ofWord, word, BitVec.toNat_ofNat, Nat.mod_eq_of_lt hlt, he]

end LittleEndian
