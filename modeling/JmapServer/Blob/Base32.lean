import Mathlib.Data.List.Nodup
import Mathlib.Data.Nat.Bitwise
import Mathlib.Tactic.FinCases

/-!
# The base32 bit stream

`Base32Writer` and `Base32Reader` of `store::serialize::base32`, which the blob identifiers of
`jmap/src/types/blob.rs` are written with and read back by. The writer spreads each byte over
the five-bit characters of its alphabet, so that five bytes make eight characters; its
`finalize` flushes the bits of a last, incomplete group. The reader undoes this one byte at a
time, keeping the last character it read.

Both follow the same cycle of five bytes. `encode` gives the text of a byte string group by
group; the writer produces it, and the reader reads the bytes back from it, from any group
boundary and whatever the last character it kept.
-/
namespace JmapServer.Base32

/-! ## Bytes bit by bit -/

theorem byte_ext {a b : UInt8} (h : ∀ i : Fin 8, a.toBitVec.getLsbD i = b.toBitVec.getLsbD i) :
    a = b :=
  UInt8.eq_of_toBitVec_eq (BitVec.eq_of_getLsbD_eq h)

@[simp] theorem toBitVec_land (a b : UInt8) : (a &&& b).toBitVec = a.toBitVec &&& b.toBitVec :=
  rfl

@[simp] theorem toBitVec_lor (a b : UInt8) : (a ||| b).toBitVec = a.toBitVec ||| b.toBitVec :=
  rfl

@[simp] theorem toBitVec_shiftLeft (a b : UInt8) :
    (a <<< b).toBitVec = a.toBitVec <<< (b.toNat % 8) := by
  show a.toBitVec <<< (b % 8).toBitVec = _
  rw [BitVec.shiftLeft_eq']
  rfl

@[simp] theorem toBitVec_shiftRight (a b : UInt8) :
    (a >>> b).toBitVec = a.toBitVec >>> (b.toNat % 8) := by
  show a.toBitVec >>> (b % 8).toBitVec = _
  rw [BitVec.ushiftRight_eq']
  rfl

theorem toNat_shiftRight (a b : UInt8) : (a >>> b).toNat = a.toNat / 2 ^ (b.toNat % 8) := by
  show (a >>> b).toBitVec.toNat = _
  rw [toBitVec_shiftRight, BitVec.toNat_ushiftRight, Nat.shiftRight_eq_div_pow]
  rfl

theorem lt_of_shiftRight_eq_zero {c : UInt8} (h : c >>> 5 = 0) : c.toNat < 32 := by
  have := congrArg UInt8.toNat h
  rw [toNat_shiftRight] at this
  have hc := c.toNat_lt_size
  simp only [UInt8.size] at hc
  change c.toNat / 2 ^ 5 = 0 at this
  omega

theorem ne_255_of_lt {c : UInt8} (h : c.toNat < 32) : c ≠ 255 := by
  rintro rfl
  simp at h

/-! ## The alphabet -/

/-- `BASE32_ALPHABET`, as the bytes of its characters. -/
def base32Alphabet : List UInt8 :=
  "abcdefghijklmnopqrstuvwxyz792013".toList.map fun ch => ch.toNat.toUInt8

/-- `BASE32_INVERSE`: the value of an alphabet character, and `u8::MAX` for any other byte. -/
def base32Inverse (byte : UInt8) : UInt8 :=
  if byte ∈ base32Alphabet then (base32Alphabet.indexOf byte).toUInt8 else 255

/-- `BASE32_ALPHABET[ch as usize]`. -/
def alphabetAt (ch : UInt8) : UInt8 := base32Alphabet.getD ch.toNat 0

theorem toUInt8_toNat (c : UInt8) : c.toNat.toUInt8 = c :=
  UInt8.toNat.inj (UInt8.toNat_ofNat_of_lt c.toNat_lt_size)

theorem base32Alphabet_nodup : base32Alphabet.Nodup ∧ base32Alphabet.length = 32 := by decide

theorem base32Inverse_alphabetAt {c : UInt8} (h : c.toNat < 32) :
    base32Inverse (alphabetAt c) = c := by
  have h' : c.toNat < base32Alphabet.length := base32Alphabet_nodup.2 ▸ h
  have e : alphabetAt c = base32Alphabet[c.toNat] := by
    simp [alphabetAt, List.getElem?_eq_getElem h']
  rw [base32Inverse, e, if_pos (List.getElem_mem _), List.indexOf_getElem base32Alphabet_nodup.1,
    toUInt8_toNat]

theorem alphabetAt_not_continuation (c : UInt8) : alphabetAt c &&& 0xC0 ≠ 0x80 := by
  have key : ∀ x ∈ (0 : UInt8) :: base32Alphabet, x &&& 0xC0 ≠ 0x80 := by decide
  apply key
  rw [alphabetAt, List.getD_eq_getElem?_getD]
  cases h : base32Alphabet[c.toNat]? with
  | none => exact List.mem_cons_self _ _
  | some x => exact List.mem_cons_of_mem _ (List.getElem?_mem h)

/-! ## The writer -/

/-- The two characters `push_byte` computes for `byte` at position `pos`, after `last_byte`;
`u8::MAX` stands for no second character. -/
def base32Chars (pos : ℕ) (last_byte byte : UInt8) : UInt8 × UInt8 :=
  match pos % 5 with
  | 0 => ((byte &&& 0xF8) >>> 3, 255)
  | 1 => (((last_byte &&& 0x07) <<< 2) ||| ((byte &&& 0xC0) >>> 6), (byte &&& 0x3E) >>> 1)
  | 2 => (((last_byte &&& 0x01) <<< 4) ||| ((byte &&& 0xF0) >>> 4), 255)
  | 3 => (((last_byte &&& 0x0F) <<< 1) ||| (byte >>> 7), (byte &&& 0x7C) >>> 2)
  | _ => (((last_byte &&& 0x03) <<< 3) ||| ((byte &&& 0xE0) >>> 5), byte &&& 0x1F)

@[simp] theorem base32Chars_zero (l b : UInt8) : base32Chars 0 l b = ((b &&& 0xF8) >>> 3, 255) :=
  rfl

theorem base32Chars_mod (pos : ℕ) (l b : UInt8) :
    base32Chars pos l b = base32Chars (pos % 5) l b := by
  simp only [base32Chars, Nat.mod_mod]

theorem group_positions {pos : ℕ} (h : pos % 5 = 0) :
    (pos + 1) % 5 = 1 ∧ (pos + 1 + 1) % 5 = 2 ∧ (pos + 1 + 1 + 1) % 5 = 3 ∧
      (pos + 1 + 1 + 1 + 1) % 5 = 4 :=
  ⟨by omega, by omega, by omega, by omega⟩

/-- The characters of a group of five bytes. -/
def groupChars (b0 b1 b2 b3 b4 : UInt8) : List UInt8 :=
  [(base32Chars 0 0 b0).1, (base32Chars 1 b0 b1).1, (base32Chars 1 b0 b1).2,
    (base32Chars 2 b1 b2).1, (base32Chars 3 b2 b3).1, (base32Chars 3 b2 b3).2,
    (base32Chars 4 b3 b4).1, (base32Chars 4 b3 b4).2]

/-- The text of a byte string: eight characters for each group of five bytes, and a last,
shorter group padded with zero bytes and cut to the characters that hold its bits. -/
def encode : List UInt8 → List UInt8
  | b0 :: b1 :: b2 :: b3 :: b4 :: rest => (groupChars b0 b1 b2 b3 b4).map alphabetAt ++ encode rest
  | [b0, b1, b2, b3] => ((groupChars b0 b1 b2 b3 0).take 7).map alphabetAt
  | [b0, b1, b2] => ((groupChars b0 b1 b2 0 0).take 5).map alphabetAt
  | [b0, b1] => ((groupChars b0 b1 0 0 0).take 4).map alphabetAt
  | [b0] => ((groupChars b0 0 0 0 0).take 2).map alphabetAt
  | [] => []

theorem encode_mem {L : List UInt8} {x : UInt8} (h : x ∈ encode L) : ∃ c, x = alphabetAt c := by
  induction L using encode.induct with
  | case1 _ _ _ _ _ _ ih =>
    simp only [encode, List.mem_append, List.mem_map] at h
    rcases h with ⟨c, -, rfl⟩ | h
    exacts [⟨c, rfl⟩, ih h]
  | case6 => simp [encode] at h
  | _ =>
    simp only [encode, List.mem_map] at h
    obtain ⟨c, -, rfl⟩ := h
    exact ⟨c, rfl⟩

theorem groupChars_bits (b0 b1 b2 b3 b4 : UInt8) :
    (∀ c ∈ groupChars b0 b1 b2 b3 b4, c >>> 5 = 0) ∧
    ((base32Chars 0 0 b0).1 <<< 3) ||| ((base32Chars 1 b0 b1).1 >>> 2) = b0 ∧
    ((base32Chars 1 b0 b1).1 <<< 6) ||| ((base32Chars 1 b0 b1).2 <<< 1) |||
      ((base32Chars 2 b1 b2).1 >>> 4) = b1 ∧
    ((base32Chars 2 b1 b2).1 <<< 4) ||| ((base32Chars 3 b2 b3).1 >>> 1) = b2 ∧
    ((base32Chars 3 b2 b3).1 <<< 7) ||| ((base32Chars 3 b2 b3).2 <<< 2) |||
      ((base32Chars 4 b3 b4).1 >>> 3) = b3 ∧
    ((base32Chars 4 b3 b4).1 <<< 5) ||| (base32Chars 4 b3 b4).2 = b4 := by
  simp only [groupChars, List.forall_mem_cons, List.not_mem_nil, false_implies, forall_const,
    and_true]
  refine ⟨⟨?_, ?_, ?_, ?_, ?_, ?_, ?_, ?_⟩, ?_, ?_, ?_, ?_, ?_⟩ <;> refine byte_ext fun i => ?_ <;>
  · simp only [base32Chars, Nat.reduceMod, toBitVec_lor, toBitVec_land, toBitVec_shiftLeft,
      toBitVec_shiftRight, BitVec.getLsbD_or, BitVec.getLsbD_and, BitVec.getLsbD_shiftLeft,
      BitVec.getLsbD_ushiftRight, UInt8.reduceToNat, UInt8.toBitVec_ofNat, BitVec.getLsbD_ofNat,
      Nat.testBit, Nat.reduceAdd, BitVec.getLsbD_zero]
    fin_cases i <;> simp only [Fin.isValue, Fin.val_zero, Fin.val_one, Fin.val_two, Nat.reduceAdd,
      Nat.reduceSub, Nat.reduceLT, Nat.reduceLeDiff, Nat.reduceShiftRight, Nat.one_and_eq_mod_two,
      Nat.reduceMod, Nat.reduceBNe, decide_True, decide_False, Bool.true_and, Bool.false_and,
      Bool.and_true, Bool.and_false, Bool.not_true, Bool.not_false, Bool.or_false, Bool.false_or,
      BitVec.getLsbD_ge]

theorem base32Chars_fst_lt (pos : ℕ) (l b : UInt8) : (base32Chars pos l b).1.toNat < 32 := by
  have h := fun b0 b1 b2 b3 b4 => (groupChars_bits b0 b1 b2 b3 b4).1
  apply lt_of_shiftRight_eq_zero
  rw [base32Chars_mod]
  rcases (by omega : pos % 5 = 0 ∨ pos % 5 = 1 ∨ pos % 5 = 2 ∨ pos % 5 = 3 ∨ pos % 5 = 4)
    with h' | h' | h' | h' | h' <;> rw [h']
  exacts [h b 0 0 0 0 _ (by simp [groupChars]), h l b 0 0 0 _ (by simp [groupChars]),
    h 0 l b 0 0 _ (by simp [groupChars]), h 0 0 l b 0 _ (by simp [groupChars]),
    h 0 0 0 l b _ (by simp [groupChars])]

theorem base32Chars_snd_lt {pos : ℕ} (h : pos % 5 = 1 ∨ pos % 5 = 3 ∨ pos % 5 = 4)
    (l b : UInt8) : (base32Chars pos l b).2.toNat < 32 := by
  have h₁ := fun b0 b1 b2 b3 b4 => (groupChars_bits b0 b1 b2 b3 b4).1
  apply lt_of_shiftRight_eq_zero
  rw [base32Chars_mod]
  rcases h with h | h | h <;> rw [h]
  exacts [h₁ l b 0 0 0 _ (by simp [groupChars]), h₁ 0 0 l b 0 _ (by simp [groupChars]),
    h₁ 0 0 0 l b _ (by simp [groupChars])]

/-- `Base32Writer`, with its `String` as the bytes of its UTF-8 text. -/
structure Base32Writer where
  last_byte : UInt8
  pos : ℕ
  result : List UInt8
  deriving DecidableEq, Repr

namespace Base32Writer

/-- `Base32Writer::with_capacity`: the capacity only reserves room. -/
def withCapacity : Base32Writer := ⟨0, 0, []⟩

/-- `push_char` appends a character without moving the bit cycle. -/
def pushChar (w : Base32Writer) (ch : Char) : Base32Writer :=
  { w with result := w.result ++ String.utf8EncodeChar ch }

@[simp] theorem withCapacity_pushChar (ch : Char) :
    withCapacity.pushChar ch = ⟨0, 0, String.utf8EncodeChar ch⟩ := by
  rw [pushChar, withCapacity, List.nil_append]

/-- `push_byte`. The alphabet is ASCII, so each character pushed is one byte of the text. -/
def pushByte (w : Base32Writer) (byte : UInt8) (is_remainder : Bool) : Base32Writer :=
  let chs := base32Chars w.pos w.last_byte byte
  let result := w.result ++ [alphabetAt chs.1]
  if is_remainder then { w with result := result }
  else
    { last_byte := byte, pos := w.pos + 1,
      result := if chs.2 ≠ 255 then result ++ [alphabetAt chs.2] else result }

/-- The writer's `Write::write`: every byte pushed in turn. -/
def write (w : Base32Writer) (bytes : List UInt8) : Base32Writer :=
  bytes.foldl (fun w byte => w.pushByte byte false) w

/-- `finalize` flushes the bits of an incomplete group as one more character. -/
def finalize (w : Base32Writer) : List UInt8 :=
  (if w.pos % 5 ≠ 0 then w.pushByte 0 true else w).result

@[simp] theorem write_nil (w : Base32Writer) : w.write [] = w := rfl

@[simp] theorem write_cons (w : Base32Writer) (b : UInt8) (bs : List UInt8) :
    w.write (b :: bs) = (w.pushByte b false).write bs := rfl

theorem write_append (w : Base32Writer) (xs ys : List UInt8) :
    w.write (xs ++ ys) = (w.write xs).write ys :=
  List.foldl_append _ _ _ _

theorem pushByte_false (w : Base32Writer) (b : UInt8) :
    w.pushByte b false = ⟨b, w.pos + 1, w.result ++
      ((base32Chars (w.pos % 5) w.last_byte b).1 :: if w.pos % 5 = 0 ∨ w.pos % 5 = 2 then []
        else [(base32Chars (w.pos % 5) w.last_byte b).2]).map alphabetAt⟩ := by
  rw [pushByte, base32Chars_mod]
  by_cases h : w.pos % 5 = 0 ∨ w.pos % 5 = 2
  · have : (base32Chars (w.pos % 5) w.last_byte b).2 = 255 := by
      rcases h with h | h <;> rw [h] <;> rfl
    simp [h, this]
  · have := @base32Chars_snd_lt (w.pos % 5) (by omega) w.last_byte b
    simp [h, ne_255_of_lt this]

theorem pushByte_true (w : Base32Writer) (b : UInt8) : w.pushByte b true =
    { w with result := w.result ++ [alphabetAt (base32Chars (w.pos % 5) w.last_byte b).1] } := by
  rw [pushByte, base32Chars_mod]
  rfl

theorem write_group {w : Base32Writer} (h : w.pos % 5 = 0) (b0 b1 b2 b3 b4 : UInt8) :
    w.write [b0, b1, b2, b3, b4] =
      ⟨b4, w.pos + 5, w.result ++ (groupChars b0 b1 b2 b3 b4).map alphabetAt⟩ := by
  obtain ⟨l, pos, result⟩ := w
  obtain ⟨h1, h2, h3, h4⟩ := group_positions h
  dsimp only at h
  simp [pushByte_false, h, h1, h2, h3, h4, groupChars]

theorem finalize_write (L : List UInt8) {w : Base32Writer} (h : w.pos % 5 = 0) :
    (w.write L).finalize = w.result ++ encode L := by
  induction L using encode.induct generalizing w with
  | case1 b0 b1 b2 b3 b4 rest ih =>
    rw [show b0 :: b1 :: b2 :: b3 :: b4 :: rest = [b0, b1, b2, b3, b4] ++ rest from rfl,
      write_append, write_group h, ih (by dsimp only; omega)]
    simp [encode]
  | _ =>
    obtain ⟨l, pos, result⟩ := w
    obtain ⟨h1, h2, h3, h4⟩ := group_positions h
    dsimp only at h
    simp [finalize, pushByte_false, pushByte_true, h, h1, h2, h3, h4, encode, groupChars]

end Base32Writer

/-! ## The reader -/

/-- `Base32Reader`: the bytes of the text still to read, the value of the last character read,
and how many bytes were returned. -/
structure Base32Reader where
  bytes : List UInt8
  last_byte : UInt8
  pos : ℕ
  deriving DecidableEq, Repr

namespace Base32Reader

def new (bytes : List UInt8) : Base32Reader := ⟨bytes, 0, 0⟩

/-- `map_byte` consumes one byte of the text; only a character of the alphabet gives a value,
which it keeps as `last_byte`. -/
def mapByte (r : Base32Reader) : Option UInt8 × Base32Reader :=
  match r.bytes with
  | [] => (none, r)
  | byte :: rest =>
    if base32Inverse byte ≠ 255 then
      (some (base32Inverse byte), { r with bytes := rest, last_byte := base32Inverse byte })
    else (none, { r with bytes := rest })

/-- `Iterator::next`. Bytes 0, 1 and 3 of a group take their low bits from the next character,
read ahead, and 0 when there is none. -/
def next (r : Base32Reader) : Option UInt8 × Base32Reader :=
  let pos := r.pos % 5
  let last_byte := r.last_byte
  match r.mapByte with
  | (none, r) => (none, r)
  | (some byte, r) =>
    let r := { r with pos := r.pos + 1 }
    match pos with
    | 0 =>
      let (ahead, r) := r.mapByte
      (some ((byte <<< 3) ||| (ahead.getD 0 >>> 2)), r)
    | 1 =>
      let (ahead, r) := r.mapByte
      (some ((last_byte <<< 6) ||| (byte <<< 1) ||| (ahead.getD 0 >>> 4)), r)
    | 2 => (some ((last_byte <<< 4) ||| (byte >>> 1)), r)
    | 3 =>
      let (ahead, r) := r.mapByte
      (some ((last_byte <<< 7) ||| (byte <<< 2) ||| (ahead.getD 0 >>> 3)), r)
    | _ => (some ((last_byte <<< 5) ||| byte), r)

theorem mapByte_alphabetAt {c : UInt8} (h : c.toNat < 32) (rest : List UInt8) (last : UInt8)
    (pos : ℕ) : mapByte ⟨alphabetAt c :: rest, last, pos⟩ = (some c, ⟨rest, c, pos⟩) := by
  simp [mapByte, base32Inverse_alphabetAt h, ne_255_of_lt h]

section
variable {pos : ℕ} (rest : List UInt8)

/-! Each byte of a group is read back from the characters the writer made of it. -/

theorem next_group0 (last : UInt8) (hp : pos % 5 = 0) (b0 b1 : UInt8) :
    next ⟨alphabetAt (base32Chars 0 0 b0).1 :: alphabetAt (base32Chars 1 b0 b1).1 :: rest, last,
      pos⟩ = (some b0, ⟨rest, (base32Chars 1 b0 b1).1, pos + 1⟩) := by
  simp only [next, mapByte_alphabetAt (base32Chars_fst_lt _ _ _), hp,
    (groupChars_bits b0 b1 0 0 0).2.1, Option.getD_some]

theorem next_group1 (hp : pos % 5 = 1) (b0 b1 b2 : UInt8) :
    next ⟨alphabetAt (base32Chars 1 b0 b1).2 :: alphabetAt (base32Chars 2 b1 b2).1 :: rest,
      (base32Chars 1 b0 b1).1, pos⟩ = (some b1, ⟨rest, (base32Chars 2 b1 b2).1, pos + 1⟩) := by
  simp only [next, mapByte_alphabetAt (base32Chars_fst_lt _ _ _),
    mapByte_alphabetAt (@base32Chars_snd_lt 1 (by decide) _ _), hp,
    (groupChars_bits b0 b1 b2 0 0).2.2.1, Option.getD_some]

theorem next_group2 (hp : pos % 5 = 2) (b1 b2 b3 : UInt8) :
    next ⟨alphabetAt (base32Chars 3 b2 b3).1 :: rest, (base32Chars 2 b1 b2).1, pos⟩ =
      (some b2, ⟨rest, (base32Chars 3 b2 b3).1, pos + 1⟩) := by
  simp only [next, mapByte_alphabetAt (base32Chars_fst_lt _ _ _), hp,
    (groupChars_bits 0 b1 b2 b3 0).2.2.2.1]

theorem next_group3 (hp : pos % 5 = 3) (b2 b3 b4 : UInt8) :
    next ⟨alphabetAt (base32Chars 3 b2 b3).2 :: alphabetAt (base32Chars 4 b3 b4).1 :: rest,
      (base32Chars 3 b2 b3).1, pos⟩ = (some b3, ⟨rest, (base32Chars 4 b3 b4).1, pos + 1⟩) := by
  simp only [next, mapByte_alphabetAt (base32Chars_fst_lt _ _ _),
    mapByte_alphabetAt (@base32Chars_snd_lt 3 (by decide) _ _), hp,
    (groupChars_bits 0 0 b2 b3 b4).2.2.2.2.1, Option.getD_some]

theorem next_group4 (hp : pos % 5 = 4) (b3 b4 : UInt8) :
    next ⟨alphabetAt (base32Chars 4 b3 b4).2 :: rest, (base32Chars 4 b3 b4).1, pos⟩ =
      (some b4, ⟨rest, (base32Chars 4 b3 b4).2, pos + 1⟩) := by
  simp only [next, mapByte_alphabetAt (@base32Chars_snd_lt 4 (by decide) _ _), hp,
    (groupChars_bits 0 0 0 b3 b4).2.2.2.2.2]

end

end Base32Reader

/-! ## Streams of bytes -/

section
variable {ρ : Type} (next : ρ → Option UInt8 × ρ)

/-- `next` returns the bytes `bs` one after the other from `r`, and leaves `r'`. -/
def Reads : ρ → List UInt8 → ρ → Prop
  | r, [], r' => r' = r
  | r, b :: bs, r' => (next r).1 = some b ∧ Reads (next r).2 bs r'

variable {next}

theorem reads_cons {r r₁ r' : ρ} {b : UInt8} {bs : List UInt8} (h : next r = (some b, r₁))
    (hr : Reads next r₁ bs r') : Reads next r (b :: bs) r' := by
  simpa [Reads, h] using hr

theorem reads_append {r r'' : ρ} (xs ys : List UInt8) :
    Reads next r (xs ++ ys) r'' ↔ ∃ r', Reads next r xs r' ∧ Reads next r' ys r'' := by
  induction xs generalizing r with
  | nil => simp [Reads]
  | cons b bs ih => simp [Reads, ih, and_assoc]

end

/-! ## The reader reads the writer's text -/

open Base32Reader in
theorem reads_group {pos : ℕ} (h : pos % 5 = 0) (last b0 b1 b2 b3 b4 : UInt8) (rest : List UInt8) :
    Reads next ⟨(groupChars b0 b1 b2 b3 b4).map alphabetAt ++ rest, last, pos⟩ [b0, b1, b2, b3, b4]
      ⟨rest, (base32Chars 4 b3 b4).2, pos + 5⟩ :=
  have ⟨h1, h2, h3, h4⟩ := group_positions h
  reads_cons (next_group0 _ last h b0 b1) <| reads_cons (next_group1 _ h1 b0 b1 b2) <|
    reads_cons (next_group2 _ h2 b1 b2 b3) <| reads_cons (next_group3 _ h3 b2 b3 b4) <|
    reads_cons (next_group4 _ h4 b3 b4) rfl

open Base32Reader in
/-- From a group boundary, whatever the last character it kept, the reader returns the bytes of
an encoded string, and reads nothing of the text after it. -/
theorem reads_encode (L t : List UInt8) {last : UInt8} {pos : ℕ} (h : pos % 5 = 0) :
    ∃ r', Reads next ⟨encode L ++ t, last, pos⟩ L r' := by
  induction L using encode.induct generalizing last pos with
  | case1 b0 b1 b2 b3 b4 rest ih =>
    obtain ⟨r', hr⟩ := @ih (base32Chars 4 b3 b4).2 (pos + 5) (by omega)
    rw [encode, List.append_assoc]
    exact ⟨r', (reads_append [b0, b1, b2, b3, b4] rest).2
      ⟨_, reads_group h last b0 b1 b2 b3 b4 _, hr⟩⟩
  | case2 b0 b1 b2 b3 =>
    obtain ⟨h1, h2, h3, -⟩ := group_positions h
    exact ⟨_, reads_cons (next_group0 _ last h b0 b1) <| reads_cons (next_group1 _ h1 b0 b1 b2) <|
      reads_cons (next_group2 _ h2 b1 b2 b3) <| reads_cons (next_group3 t h3 b2 b3 0) rfl⟩
  | case3 b0 b1 b2 =>
    obtain ⟨h1, h2, h3, -⟩ := group_positions h
    exact ⟨_, reads_cons (next_group0 _ last h b0 b1) <| reads_cons (next_group1 _ h1 b0 b1 b2) <|
      reads_cons (next_group2 t h2 b1 b2 0) rfl⟩
  | case4 b0 b1 =>
    obtain ⟨h1, h2, h3, -⟩ := group_positions h
    exact ⟨_, reads_cons (next_group0 _ last h b0 b1) <| reads_cons (next_group1 t h1 b0 b1 0) rfl⟩
  | case5 b0 => exact ⟨_, reads_cons (next_group0 t last h b0 0) rfl⟩
  | case6 => exact ⟨_, rfl⟩

theorem length_encode (L : List UInt8) : (encode L).length = (8 * L.length + 4) / 5 := by
  induction L using encode.induct with
  | case1 _ _ _ _ _ rest ih => simp [encode, groupChars, ih]; omega
  | _ => simp [encode, groupChars]

end JmapServer.Base32
