import JmapServer.Blob.Base32
import Mathlib.Tactic.NormNum
import Mathlib.Tactic.Ring

/-!
# Unsigned LEB128

`Leb128Writer` and `Leb128Iterator` of `store::serialize::leb128`, which the offsets of a blob
section are written with, for `usize`: seven bits to a byte, lowest first, with the high bit set
on every byte but the last. The iterator reads at most ten bytes, one for each shift of its
table, and ORs each byte's seven bits into the result at its shift.

The round trip holds over any stream of bytes, whatever follows the number: the reader is left
where the writer's bytes end. Its proof keeps the bits read so far below the shift of the next
byte, so that each OR adds.
-/
namespace JmapServer.Leb128
open Base32

/-! ## Machine words as numbers -/

theorem toNat_lor (a b : UInt64) : (a ||| b).toNat = a.toNat ||| b.toNat :=
  BitVec.toNat_or ..

theorem toNat_shiftLeft (a b : UInt64) :
    (a <<< b).toNat = a.toNat * 2 ^ (b.toNat % 64) % 2 ^ 64 := by
  show (a.toBitVec <<< (b % 64).toBitVec).toNat = _
  rw [BitVec.shiftLeft_eq', BitVec.toNat_shiftLeft, Nat.shiftLeft_eq]
  rfl

theorem toNat_shiftRight (a b : UInt64) : (a >>> b).toNat = a.toNat / 2 ^ (b.toNat % 64) := by
  show (a.toBitVec >>> (b % 64).toBitVec).toNat = _
  rw [BitVec.ushiftRight_eq', BitVec.toNat_ushiftRight, Nat.shiftRight_eq_div_pow]
  rfl

theorem lor_mul_two_pow {a x s : ℕ} (h : a < 2 ^ s) : a ||| x * 2 ^ s = a + x * 2 ^ s := by
  apply Nat.eq_of_testBit_eq
  intro j
  rw [Nat.testBit_or, ← Nat.shiftLeft_eq, Nat.testBit_shiftLeft, Nat.shiftLeft_eq,
    Nat.add_comm, Nat.mul_comm, Nat.testBit_mul_pow_two_add x h]
  by_cases hj : j < s
  · simp [hj]
  · have hs : 2 ^ s ≤ 2 ^ j := Nat.pow_le_pow_right Nat.two_pos (not_lt.1 hj)
    simp [hj, Nat.testBit_lt_two_pow (lt_of_lt_of_le h hs), not_lt.1 hj]

theorem land_0x7f (v : UInt64) : v &&& 0x7f = (v.toNat % 128).toUInt64 :=
  UInt64.toNat.inj <| by
    rw [UInt64.and_toNat, UInt64.toNat_ofNat_of_lt ((Nat.mod_lt _ (by decide)).trans (by decide))]
    exact Nat.and_pow_two_sub_one_eq_mod v.toNat 7

theorem toNat_lor_shiftLeft {acc x : UInt64} {s : ℕ} (hs : s < 64) (ha : acc.toNat < 2 ^ s)
    (hx : acc.toNat + x.toNat * 2 ^ s < 2 ^ 64) :
    (acc ||| (x <<< s.toUInt64)).toNat = acc.toNat + x.toNat * 2 ^ s := by
  have hs' : s.toUInt64.toNat = s := UInt64.toNat_ofNat_of_lt (by simp [UInt64.size]; omega)
  rw [toNat_lor, toNat_shiftLeft, hs', Nat.mod_eq_of_lt hs, Nat.mod_eq_of_lt (by omega),
    lor_mul_two_pow ha]

theorem toUInt64_toNat (v : UInt64) : v.toNat.toUInt64 = v :=
  UInt64.toNat.inj (UInt64.toNat_ofNat_of_lt v.toNat_lt_size)

theorem lt_0x80 (v : UInt64) : v < 0x80 ↔ v.toNat < 128 := Iff.rfl

theorem leb128_byte : ∀ n < 128,
    n.toUInt64.toUInt8 &&& 0x80 = 0 ∧ n.toUInt64.toUInt8.toUInt64 = n.toUInt64 ∧
    (n.toUInt64 ||| 0x80).toUInt8 &&& 0x80 ≠ 0 ∧
    ((n.toUInt64 ||| 0x80).toUInt8 &&& 0x7f).toUInt64 = n.toUInt64 := by
  decide

/-! ## The codec -/

/-- The bytes `to_leb128_writer` writes for `value`. -/
def leb128Bytes (value : UInt64) : List UInt8 :=
  if value < 0x80 then [value.toUInt8]
  else ((value &&& 0x7f) ||| 0x80).toUInt8 :: leb128Bytes (value >>> 7)
termination_by value.toNat
decreasing_by
  rename_i h
  rw [lt_0x80] at h
  rw [toNat_shiftRight]
  exact Nat.div_lt_self (by omega) (by decide)

theorem leb128Bytes_ne_nil (value : UInt64) : leb128Bytes value ≠ [] := by
  rw [leb128Bytes]
  split <;> simp

/-- `write_leb128` on the base32 writer pushes the bytes in turn. -/
def writeLeb128 (w : Base32Writer) (value : UInt64) : Base32Writer := w.write (leb128Bytes value)

/-- The shifts `from_leb128_it` zips the bytes with, for `usize`. -/
def usizeShifts : List UInt64 := [0, 7, 14, 21, 28, 35, 42, 49, 56, 63]

section
variable {ρ : Type} (next : ρ → Option UInt8 × ρ)

/-- `from_leb128_it` from the given shifts and the bits read so far: `None` when the bytes or the
shifts run out before a byte with its high bit clear. -/
def fromLeb128It : List UInt64 → UInt64 → ρ → Option (UInt64 × ρ)
  | [], _, _ => none
  | shift :: shifts, result, r =>
    match next r with
    | (none, _) => none
    | (some byte, r) =>
      if byte &&& 0x80 = 0 then some (result ||| (byte.toUInt64 <<< shift), r)
      else fromLeb128It shifts (result ||| ((byte &&& 0x7f).toUInt64 <<< shift)) r

/-- `next_leb128`. -/
def nextLeb128 (r : ρ) : Option (UInt64 × ρ) := fromLeb128It next usizeShifts 0 r

end

theorem usizeShifts_drop {k : ℕ} (hk : k ≤ 9) :
    usizeShifts.drop k = (7 * k).toUInt64 :: usizeShifts.drop (k + 1) := by
  have : ∀ k ≤ 9, usizeShifts.drop k = (7 * k).toUInt64 :: usizeShifts.drop (k + 1) := by decide
  exact this k hk

section
variable {ρ : Type} {next : ρ → Option UInt8 × ρ}

/-- The reader takes back the bytes of a value from the `k`-th shift on: with `acc` the bits read
before, below the shift, it returns `acc` plus the value at the shift, where it fits in a word. -/
theorem fromLeb128It_leb128Bytes (v : UInt64) {k : ℕ} {acc V : UInt64} {r r' : ρ} (hk : k ≤ 9)
    (hacc : acc.toNat < 2 ^ (7 * k)) (hV : V.toNat = acc.toNat + v.toNat * 2 ^ (7 * k))
    (h : Reads next r (leb128Bytes v) r') :
    fromLeb128It next (usizeShifts.drop k) acc r = some (V, r') := by
  have hV64 := V.toNat_lt_size
  simp only [UInt64.size] at hV64
  induction v using leb128Bytes.induct generalizing k acc r with
  | case1 v hv =>
    rw [leb128Bytes, if_pos hv] at h
    obtain ⟨hb, rfl⟩ := h
    obtain ⟨hlast, hval, -, -⟩ := leb128_byte v.toNat hv
    rw [toUInt64_toNat] at hlast hval
    have e : next r = (some v.toUInt8, (next r).2) := by rw [← hb]
    rw [usizeShifts_drop hk, fromLeb128It, e]
    simp only [if_pos hlast, hval, Option.some.injEq, Prod.mk.injEq, and_true]
    exact UInt64.toNat.inj (by rw [toNat_lor_shiftLeft (by omega) hacc (by omega), hV])
  | case2 v hv ih =>
    rw [leb128Bytes, if_neg hv] at h
    obtain ⟨hb, h⟩ := h
    rw [lt_0x80, not_lt] at hv
    obtain ⟨-, -, hmore, hval⟩ := leb128_byte (v.toNat % 128) (Nat.mod_lt _ (by decide))
    rw [← land_0x7f] at hmore hval
    have e : next r = (some ((v &&& 0x7f) ||| 0x80).toUInt8, (next r).2) := by rw [← hb]
    rw [usizeShifts_drop hk, fromLeb128It, e]
    simp only [if_neg hmore, hval]
    have hk' : k + 1 ≤ 9 := by
      by_contra hk'
      obtain rfl : k = 9 := by omega
      rw [show (2 : ℕ) ^ (7 * 9) = 9223372036854775808 by norm_num] at hV
      omega
    have hlow : (v &&& 0x7f).toNat = v.toNat % 128 := by
      rw [UInt64.and_toNat]
      exact Nat.and_pow_two_sub_one_eq_mod v.toNat 7
    have hsplit : v.toNat * 2 ^ (7 * k) =
        v.toNat % 128 * 2 ^ (7 * k) + v.toNat / 128 * 2 ^ (7 * (k + 1)) := by
      nth_rewrite 1 [← Nat.mod_add_div v.toNat 128]
      rw [Nat.mul_succ, pow_add]
      ring
    have hacc' :=
      @toNat_lor_shiftLeft acc (v &&& 0x7f) (7 * k) (by omega) hacc (by rw [hlow]; omega)
    have hlt : v.toNat % 128 * 2 ^ (7 * k) ≤ 127 * 2 ^ (7 * k) :=
      Nat.mul_le_mul_right _ (Nat.le_of_lt_succ (Nat.mod_lt _ (by decide)))
    refine ih hk' ?_ ?_ h
    · rw [hacc', hlow, Nat.mul_succ, pow_add]
      omega
    · have hshift : (v >>> 7).toNat = v.toNat / 128 := toNat_shiftRight v 7
      rw [hacc', hlow, hshift, hV, hsplit, Nat.add_assoc]

/-- `next_leb128` reads back what `write_leb128` wrote, and stops where its bytes end. -/
theorem nextLeb128_of_reads (v : UInt64) {r r' : ρ} (h : Reads next r (leb128Bytes v) r') :
    nextLeb128 next r = some (v, r') :=
  @fromLeb128It_leb128Bytes ρ next v 0 0 v r r' (by decide) (by decide) (by simp) h

end

end JmapServer.Leb128
