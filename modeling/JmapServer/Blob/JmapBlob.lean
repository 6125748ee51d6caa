import JmapServer.Blob.Leb128
import Mathlib.Tactic.IntervalCases

/-!
# Blob identifiers

`JMAPBlob` of `jmap/src/types/blob.rs`: a blob of the store and, optionally, a section of it.
`fmt` writes it as one prefix letter, for the kind of blob and the section's encoding, followed
by the base32 text of the hash and of the section's two offsets in LEB128. `parse` reads it back,
and the serde pair sends a blob to that text and back through `parse`, with the default blob
when parsing fails.

The prefix letters name five encodings for each kind of blob, `'c'` to `'g'` for a local one and
`'h'` to `'l'` for an external one. A blob comes back from its text exactly when it has no
section or a section whose encoding has a letter; a larger encoding writes a letter of another
kind, of a smaller encoding, or one that is refused.

`BLOB_HASH_LEN`, a constant of the store crate, is the parameter `hashLen` here: nothing below
depends on its value.
-/
namespace JmapServer.JmapBlob
open Base32 Leb128

/-! ## Data -/

/-- The `[u8; BLOB_HASH_LEN]` hash of a blob. -/
structure BlobHash (len : ℕ) where
  bytes : List UInt8
  length_eq : bytes.length = len
  deriving DecidableEq

/-- `BlobId` of the store crate. -/
inductive BlobId (len : ℕ)
  | Local (hash : BlobHash len)
  | External (hash : BlobHash len)
  deriving DecidableEq

namespace BlobId

def isLocal {len : ℕ} : BlobId len → Bool
  | .Local _ => true
  | .External _ => false

def hash {len : ℕ} : BlobId len → BlobHash len
  | .Local hash | .External hash => hash

end BlobId

structure BlobSection where
  offset_start : UInt64
  size : UInt64
  encoding : UInt8
  deriving DecidableEq

/-- `JMAPBlob`; its field `section` is named `blobSection`, since `section` is a keyword. -/
structure JMAPBlob (len : ℕ) where
  id : BlobId len
  blobSection : Option BlobSection
  deriving DecidableEq

section
variable {hashLen : ℕ}

namespace JMAPBlob

def new (id : BlobId hashLen) : JMAPBlob hashLen := ⟨id, none⟩

/-- `new_section`; the size is a `usize` difference, which wraps in a release build. -/
def newSection (id : BlobId hashLen) (offset_start offset_end : UInt64) (encoding : UInt8) :
    JMAPBlob hashLen :=
  ⟨id, some ⟨offset_start, offset_end - offset_start, encoding⟩⟩

def startOffset (b : JMAPBlob hashLen) : UInt64 :=
  match b.blobSection with
  | some s => s.offset_start
  | none => 0

/-- `Default`: the local blob with the zero hash. -/
def default : JMAPBlob hashLen :=
  ⟨.Local ⟨List.replicate hashLen 0, List.length_replicate _ _⟩, none⟩

end JMAPBlob

/-! ## Writing -/

def charFrom (b : UInt8) : Char := Char.ofNat b.toNat

/-- `Display::fmt`, as the bytes of the text it writes. The prefix letter of a section is the byte
sum `b'c' + encoding` or `b'h' + encoding`, which wraps in a release build. -/
def fmt (b : JMAPBlob hashLen) : List UInt8 :=
  match b.blobSection with
  | some s =>
    let writer := Base32Writer.withCapacity.pushChar
      (charFrom (if b.id.isLocal then 'c'.toUInt8 + s.encoding else 'h'.toUInt8 + s.encoding))
    let writer := writer.write b.id.hash.bytes
    let writer := writeLeb128 writer s.offset_start
    let writer := writeLeb128 writer s.size
    writer.finalize
  | none =>
    let writer := Base32Writer.withCapacity.pushChar (if b.id.isLocal then 'a' else 'b')
    (writer.write b.id.hash.bytes).finalize

/-- `Serialize`: the text `fmt` writes. -/
def serialize (b : JMAPBlob hashLen) : List UInt8 := fmt b

/-! ## Reading -/

/-- The kind of blob and the encoding the first byte of an identifier names. -/
def prefixKind (first : UInt8) : Option (Bool × Option UInt8) :=
  if first = 'b'.toUInt8 then some (false, none)
  else if first = 'a'.toUInt8 then some (true, none)
  else if 'c'.toUInt8 ≤ first ∧ first ≤ 'g'.toUInt8 then some (true, some (first - 'c'.toUInt8))
  else if 'h'.toUInt8 ≤ first ∧ first ≤ 'l'.toUInt8 then some (false, some (first - 'h'.toUInt8))
  else none

/-- `id.get(1..)`: the text after its first byte, when a character starts there. -/
def strTail (id : List UInt8) : Option (List UInt8) :=
  match id with
  | [] => none
  | _ :: rest =>
    match rest with
    | b :: _ => if b &&& 0xC0 = 0x80 then none else some rest
    | [] => some rest

section
variable {ρ : Type} (next : ρ → Option UInt8 × ρ)

/-- The loop that fills the hash with `it.next()?`. -/
def readHash : (n : ℕ) → ρ → Option (BlobHash n × ρ)
  | 0, r => some (⟨[], rfl⟩, r)
  | n + 1, r =>
    match next r with
    | (some b, r) =>
      (readHash n r).map fun (hash, r) => (⟨b :: hash.bytes, by simp [hash.length_eq]⟩, r)
    | (none, _) => none

end

/-- `JMAPBlob::parse`, on the bytes of the text. -/
def parse (id : List UInt8) : Option (JMAPBlob hashLen) := do
  let first ← id.head?
  let (is_local, encoding) ← prefixKind first
  let rest ← strTail id
  let (hash, it) ← readHash Base32Reader.next hashLen (Base32Reader.new rest)
  let blobId := if is_local then BlobId.Local hash else BlobId.External hash
  match encoding with
  | some encoding =>
    let (offset_start, it) ← nextLeb128 Base32Reader.next it
    let (size, _) ← nextLeb128 Base32Reader.next it
    some ⟨blobId, some ⟨offset_start, size, encoding⟩⟩
  | none => some ⟨blobId, none⟩

/-- `JMAPBlobVisitor::visit_str`: a text that does not parse gives the default blob. -/
def visitStr (v : List UInt8) : JMAPBlob hashLen := (parse v).getD JMAPBlob.default

end

/-! ## Round trip -/

theorem strTail_cons_encode (c : UInt8) (L t : List UInt8) (h : L ≠ [] ∨ t = []) :
    strTail (c :: (encode L ++ t)) = some (encode L ++ t) := by
  cases hL : encode L with
  | nil =>
    have hlen := length_encode L
    rw [hL, List.length_nil] at hlen
    obtain rfl : t = [] := h.resolve_left fun hne => hne (List.eq_nil_of_length_eq_zero (by omega))
    rfl
  | cons x xs =>
    obtain ⟨c', rfl⟩ := encode_mem (hL ▸ List.mem_cons_self x xs)
    simp [strTail, alphabetAt_not_continuation]

section
variable {ρ : Type} {next : ρ → Option UInt8 × ρ}

theorem readHash_of_reads {n : ℕ} (hash : BlobHash n) {r r' : ρ} (h : Reads next r hash.bytes r') :
    readHash next n r = some (hash, r') := by
  obtain ⟨bs, rfl⟩ := hash
  induction bs generalizing r with
  | nil => cases h; rfl
  | cons b bs ih =>
    obtain ⟨hb, h⟩ := h
    have e : next r = (some b, (next r).2) := by rw [← hb]
    show readHash next (bs.length + 1) r = _
    rw [readHash, e]
    simp only [ih h, Option.map_some']

end

theorem prefix_plain (l : Bool) :
    String.utf8EncodeChar (if l then 'a' else 'b') = [if l then 'a'.toUInt8 else 'b'.toUInt8] ∧
      prefixKind (if l then 'a'.toUInt8 else 'b'.toUInt8) = some (l, none) := by
  cases l <;> exact ⟨rfl, rfl⟩

theorem prefix_section (l : Bool) {e : UInt8} (he : e ≤ 4) :
    String.utf8EncodeChar (charFrom (if l then 'c'.toUInt8 + e else 'h'.toUInt8 + e)) =
        [if l then 'c'.toUInt8 + e else 'h'.toUInt8 + e] ∧
      prefixKind (if l then 'c'.toUInt8 + e else 'h'.toUInt8 + e) = some (l, some e) := by
  obtain ⟨n, hn, rfl⟩ : ∃ n < 5, e = n.toUInt8 :=
    ⟨e.toNat, Nat.lt_succ_of_le he, (toUInt8_toNat e).symm⟩
  interval_cases n <;> cases l <;> exact ⟨rfl, rfl⟩

theorem prefixKind_encoding_le {first : UInt8} {l : Bool} {e : UInt8}
    (h : prefixKind first = some (l, some e)) : e ≤ 4 := by
  unfold prefixKind at h
  split_ifs at h with h₁ h₂ h₃ h₄ <;> cases h
  · change (first - 'c'.toUInt8).toNat ≤ 4
    rw [UInt8.toNat_sub_of_le _ _ h₃.1]
    have : first.toNat ≤ 103 := h₃.2
    have : 'c'.toUInt8.toNat = 99 := rfl
    omega
  · change (first - 'h'.toUInt8).toNat ≤ 4
    rw [UInt8.toNat_sub_of_le _ _ h₄.1]
    have : first.toNat ≤ 108 := h₄.2
    have : 'h'.toUInt8.toNat = 104 := rfl
    omega

theorem utf8EncodeChar_charFrom (q : UInt8) :
    (q.toNat < 128 → String.utf8EncodeChar (charFrom q) = [q]) ∧
    (128 ≤ q.toNat → (String.utf8EncodeChar (charFrom q)).head?.bind prefixKind = none) := by
  have ascii : ∀ n < 128, String.utf8EncodeChar (charFrom n.toUInt8) = [n.toUInt8] := by decide
  have high : ∀ n < 128,
      (String.utf8EncodeChar (charFrom (n + 128).toUInt8)).head?.bind prefixKind = none := by
    decide
  refine ⟨fun h => by simpa only [toUInt8_toNat] using ascii q.toNat h, fun h => ?_⟩
  have hq : q.toNat < 256 := q.toNat_lt_size
  simpa only [Nat.sub_add_cancel h, toUInt8_toNat] using high (q.toNat - 128) (by omega)

section
variable {hashLen : ℕ}

theorem fmt_none (id : BlobId hashLen) :
    fmt ⟨id, none⟩ =
      String.utf8EncodeChar (if id.isLocal then 'a' else 'b') ++ encode id.hash.bytes := by
  rw [fmt, Base32Writer.withCapacity_pushChar, @Base32Writer.finalize_write _ ⟨0, 0, _⟩ rfl]

theorem fmt_some (id : BlobId hashLen) (s : BlobSection) :
    fmt ⟨id, some s⟩ = String.utf8EncodeChar
        (charFrom (if id.isLocal then 'c'.toUInt8 + s.encoding else 'h'.toUInt8 + s.encoding)) ++
      encode (id.hash.bytes ++ (leb128Bytes s.offset_start ++ leb128Bytes s.size)) := by
  simp only [fmt, writeLeb128, ← Base32Writer.write_append, List.append_assoc,
    Base32Writer.withCapacity_pushChar]
  rw [@Base32Writer.finalize_write _ ⟨0, 0, _⟩ rfl]

theorem blobId_eq (id : BlobId hashLen) :
    (if id.isLocal then BlobId.Local id.hash else BlobId.External id.hash) = id := by
  cases id <;> rfl

theorem parse_section_text (q : UInt8) (hash : BlobHash hashLen) (o sz : UInt64) (t : List UInt8) :
    parse (q :: (encode (hash.bytes ++ (leb128Bytes o ++ leb128Bytes sz)) ++ t)) =
      (prefixKind q).map fun k =>
        ⟨if k.1 then .Local hash else .External hash, k.2.map fun e => ⟨o, sz, e⟩⟩ := by
  obtain ⟨r, hr⟩ := @reads_encode (hash.bytes ++ (leb128Bytes o ++ leb128Bytes sz)) t 0 0 rfl
  have htail := strTail_cons_encode q (hash.bytes ++ (leb128Bytes o ++ leb128Bytes sz)) t
    (.inl (by simp [leb128Bytes_ne_nil]))
  obtain ⟨r₀, hr₀, hr⟩ := (reads_append _ _).1 hr
  obtain ⟨r₁, hr₁, hr⟩ := (reads_append _ _).1 hr
  cases hk : prefixKind q with
  | none => simp [parse, hk]
  | some k =>
    obtain ⟨l, _ | e⟩ := k <;>
      simp [parse, hk, htail, Base32Reader.new, readHash_of_reads _ hr₀, nextLeb128_of_reads _ hr₁,
        nextLeb128_of_reads _ hr]

theorem parse_plain_text {q : UInt8} {l : Bool} (hq : prefixKind q = some (l, none))
    (hash : BlobHash hashLen) (t : List UInt8) (ht : 0 < hashLen ∨ t = []) :
    parse (q :: (encode hash.bytes ++ t)) =
      some ⟨if l then .Local hash else .External hash, none⟩ := by
  obtain ⟨r, hr⟩ := @reads_encode hash.bytes t 0 0 rfl
  have htail := strTail_cons_encode q hash.bytes t
    (ht.imp_left fun hn => by simp [← List.length_pos, hash.length_eq, hn])
  simp [parse, hq, htail, Base32Reader.new, readHash_of_reads _ hr]

/-- A blob without a section, or with a section whose encoding has a letter, is read back from
its text, and from any text that starts with it once its hash is not empty. -/
theorem parse_fmt_append_of (b : JMAPBlob hashLen)
    (h : b.blobSection = none ∨ ∃ s, b.blobSection = some s ∧ s.encoding ≤ 4) (t : List UInt8)
    (ht : 0 < hashLen ∨ t = []) : parse (fmt b ++ t) = some b := by
  obtain ⟨id, sec⟩ := b
  rcases h with rfl | ⟨s, rfl, hs⟩
  · obtain ⟨hutf, hkind⟩ := prefix_plain id.isLocal
    rw [fmt_none, hutf, List.singleton_append, List.cons_append, parse_plain_text hkind _ t ht,
      blobId_eq]
  · obtain ⟨hutf, hkind⟩ := prefix_section id.isLocal hs
    rw [fmt_some, hutf, List.singleton_append, List.cons_append, parse_section_text, hkind]
    simp [blobId_eq]

/-- Text after a blob's identifier is never read: once the hash is not empty, a text that starts
with the identifier of any blob parses as the identifier alone does. -/
theorem parse_fmt_append (b : JMAPBlob hashLen) (hlen : 0 < hashLen) (t : List UInt8) :
    (parse (fmt b ++ t) : Option (JMAPBlob hashLen)) = parse (fmt b) := by
  obtain ⟨id, _ | s⟩ := b
  · rw [parse_fmt_append_of _ (.inl rfl) t (.inl hlen)]
    simpa using (parse_fmt_append_of ⟨id, none⟩ (.inl rfl) [] (.inr rfl)).symm
  · rw [fmt_some]
    generalize (if id.isLocal then 'c'.toUInt8 + s.encoding else 'h'.toUInt8 + s.encoding) = q
    by_cases hq : q.toNat < 128
    · rw [(utf8EncodeChar_charFrom q).1 hq, List.singleton_append, List.cons_append,
        parse_section_text, ← parse_section_text q _ _ _ [], List.append_nil]
    · have hf := (utf8EncodeChar_charFrom q).2 (not_lt.1 hq)
      cases hu : String.utf8EncodeChar (charFrom q) with
      | nil => exact absurd (congrArg List.length hu) (by simp [(Char.utf8Size_pos _).ne'])
      | cons f rest =>
        simp only [hu, List.head?_cons, Option.some_bind] at hf
        simp [parse, hf]

theorem trailing_byte_ignored :
    0 < 1 ∧ (parse (fmt (⟨.Local ⟨[7], rfl⟩, some ⟨300, 5, 9⟩⟩ : JMAPBlob 1) ++ [0xFF]) :
      Option (JMAPBlob 1)) = parse (fmt (⟨.Local ⟨[7], rfl⟩, some ⟨300, 5, 9⟩⟩ : JMAPBlob 1)) :=
  ⟨by decide, parse_fmt_append _ (by decide) _⟩

theorem parse_encoding_le {id : List UInt8} {b : JMAPBlob hashLen} (h : parse id = some b)
    {s : BlobSection} (hs : b.blobSection = some s) : s.encoding ≤ 4 := by
  simp only [parse, Option.bind_eq_bind, Option.bind_eq_some] at h
  obtain ⟨_, -, ⟨l, _ | e⟩, hk, _, -, _, -, h⟩ := h
  · cases h
    cases hs
  · simp only [Option.bind_eq_some] at h
    obtain ⟨_, -, _, -, ⟨⟩⟩ := h
    cases hs
    exact prefixKind_encoding_le hk

/-- A blob comes back from the text `fmt` writes exactly when it has no section or a section
whose encoding is at most 4, and so the serde pair is the identity on exactly those blobs. No
prefix letter names an encoding of 5 or more, so the letter of a larger encoding is read as the
other kind of id, as another encoding, or not at all. -/
theorem parse_fmt_eq_some_iff (b : JMAPBlob hashLen) :
    (parse (fmt b) = some b ↔
      b.blobSection = none ∨ ∃ s, b.blobSection = some s ∧ s.encoding ≤ 4) ∧
    (visitStr (serialize b) = b ↔
      b.blobSection = none ∨ ∃ s, b.blobSection = some s ∧ s.encoding ≤ 4) ∧
    ∀ first l e, prefixKind first = some (l, some e) → e ≤ 4 := by
  have hiff : parse (fmt b) = some b ↔
      b.blobSection = none ∨ ∃ s, b.blobSection = some s ∧ s.encoding ≤ 4 := by
    refine ⟨fun h => ?_, fun h => by simpa using parse_fmt_append_of b h [] (.inr rfl)⟩
    cases hs : b.blobSection with
    | none => exact .inl rfl
    | some s => exact .inr ⟨s, rfl, parse_encoding_le h hs⟩
  refine ⟨hiff, ⟨fun h => ?_, fun h => by simp [visitStr, serialize, hiff.2 h]⟩, ?_⟩
  · cases hp : (parse (fmt b) : Option (JMAPBlob hashLen)) with
    | none =>
      simp only [visitStr, serialize, hp, Option.getD_none] at h
      subst h
      exact .inl rfl
    | some b' =>
      simp only [visitStr, serialize, hp, Option.getD_some] at h
      subst h
      exact hiff.1 hp
  · exact fun _ _ _ hk => prefixKind_encoding_le hk

/-- The serde pair settles after one round: deserializing any text, serializing the blob and
deserializing again gives the same blob. This holds for a text that parses, canonical or not and
with anything after the identifier, and for one that does not, which gives the default blob. -/
theorem visitStr_serialize_visitStr (v : List UInt8) :
    (visitStr (serialize (visitStr v : JMAPBlob hashLen)) : JMAPBlob hashLen) = visitStr v := by
  have hfmt (b : JMAPBlob hashLen)
      (h : b.blobSection = none ∨ ∃ s, b.blobSection = some s ∧ s.encoding ≤ 4) :
      visitStr (serialize b) = b := by
    simp [visitStr, serialize, (by simpa using parse_fmt_append_of b h [] (.inr rfl) :
      parse (fmt b) = some b)]
  cases hp : (parse v : Option (JMAPBlob hashLen)) with
  | none =>
    have hv : (visitStr v : JMAPBlob hashLen) = JMAPBlob.default := by simp [visitStr, hp]
    rw [hv]
    exact hfmt _ (.inl rfl)
  | some b =>
    have hv : (visitStr v : JMAPBlob hashLen) = b := by simp [visitStr, hp]
    rw [hv]
    cases hs : b.blobSection with
    | none => exact hfmt b (.inl hs)
    | some s => exact hfmt b (.inr ⟨s, hs, parse_encoding_le hp hs⟩)

end

end JmapServer.JmapBlob
