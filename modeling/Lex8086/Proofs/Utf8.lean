import Lex8086.Proofs.Ascii
import Mathlib.Data.Set.List

namespace Lex8086.Utf8

/-- A byte behind the first of a sequence: six bits, marked by `10` in front of them. -/
def follower (bits : Nat) : UInt8 := UInt8.ofNat (bits + 0x80)

/-- The number that a whole sequence spells. The first byte says how many bytes there are; its other
bits, with the six of each follower put behind them, are the number. -/
inductive Spells : List UInt8 → Nat → Prop
  | one {a : Nat} : a < 0x80 → Spells [UInt8.ofNat a] a
  | two {a b : Nat} : a < 0x20 → b < 0x40 →
    Spells [UInt8.ofNat (a + 0xC0), follower b] (a * 0x40 + b)
  | three {a b c : Nat} : a < 0x10 → b < 0x40 → c < 0x40 →
    Spells [UInt8.ofNat (a + 0xE0), follower b, follower c] ((a * 0x40 + b) * 0x40 + c)
  | four {a b c d : Nat} : a < 0x08 → b < 0x40 → c < 0x40 → d < 0x40 →
    Spells [UInt8.ofNat (a + 0xF0), follower b, follower c, follower d]
      (((a * 0x40 + b) * 0x40 + c) * 0x40 + d)

structure IsCharacter (s : List UInt8) (code : Nat) : Prop where
  whole : Spells s code
  shortest : ∀ t, Spells t code → s.length ≤ t.length
  no_surrogate : ¬(0xD800 ≤ code ∧ code ≤ 0xDFFF)
  in_range : code ≤ 0x10FFFF

/-- Characters, one after the other to the end. -/
def WellFormed (bytes : ByteArray) : Prop :=
  ∃ chars : List (List UInt8), chars.flatten = bytes.data.toList ∧
    ∀ s ∈ chars, ∃ code, IsCharacter s code

theorem spells_two {v : Nat} (h : v < 0x800) :
    Spells [UInt8.ofNat (v / 64 % 32 + 0xC0), follower (v % 64)] v := by
  have hs := Spells.two (a := v / 64 % 32) (b := v % 64) (by omega) (by omega)
  rwa [show v / 64 % 32 * 0x40 + v % 64 = v by omega] at hs

theorem spells_three {v : Nat} (h : v < 0x10000) :
    Spells [UInt8.ofNat (v / 4096 % 16 + 0xE0), follower (v / 64 % 64), follower (v % 64)] v := by
  have hs := Spells.three (a := v / 4096 % 16) (b := v / 64 % 64) (c := v % 64)
    (by omega) (by omega) (by omega)
  rwa [show (v / 4096 % 16 * 0x40 + v / 64 % 64) * 0x40 + v % 64 = v by omega] at hs

theorem spells_four {v : Nat} (h : v < 0x200000) :
    Spells [UInt8.ofNat (v / 262144 % 8 + 0xF0), follower (v / 4096 % 64), follower (v / 64 % 64),
      follower (v % 64)] v := by
  have hs := Spells.four (a := v / 262144 % 8) (b := v / 4096 % 64) (c := v / 64 % 64) (d := v % 64)
    (by omega) (by omega) (by omega) (by omega)
  rwa [show ((v / 262144 % 8 * 0x40 + v / 4096 % 64) * 0x40 + v / 64 % 64) * 0x40 + v % 64 = v
    by omega] at hs

theorem Spells.length_cases {s : List UInt8} {v : Nat} (h : Spells s v) :
    s.length = 1 ∧ v < 0x80 ∨ s.length = 2 ∧ v < 0x800 ∨ s.length = 3 ∧ v < 0x10000 ∨
      s.length = 4 ∧ v < 0x200000 := by
  cases h <;> simp <;> omega

/-- Among the sequences of one length there is one for each number. -/
theorem Spells.eq_of_length_eq {s t : List UInt8} {v w : Nat} (hs : Spells s v) (ht : Spells t w)
    (hlength : s.length = t.length) (h : v = w) : s = t := by
  cases hs with
  | one ha =>
    cases ht with
    | one => rw [h]
    | _ => simp at hlength
  | @two a b ha hb =>
    cases ht with
    | @two a' b' ha' hb' =>
      -- A follower is the remainder by 64, what is in front of it the quotient.
      obtain rfl : a = a' := by omega
      obtain rfl : b = b' := by omega
      rfl
    | _ => simp at hlength
  | @three a b c ha hb hc =>
    cases ht with
    | @three a' b' c' ha' hb' hc' =>
      obtain rfl : a = a' := by omega
      obtain rfl : b = b' := by omega
      obtain rfl : c = c' := by omega
      rfl
    | _ => simp at hlength
  | @four a b c d ha hb hc hd =>
    cases ht with
    | @four a' b' c' d' ha' hb' hc' hd' =>
      obtain rfl : a = a' := by omega
      obtain rfl : b = b' := by omega
      obtain rfl : c = c' := by omega
      obtain rfl : d = d' := by omega
      rfl
    | _ => simp at hlength

theorem Spells.isCharacter {s : List UInt8} {c : Char} (hs : Spells s c.toNat)
    (hneed : s.length = 1 ∨ s.length = 2 ∧ 0x80 ≤ c.toNat ∨ s.length = 3 ∧ 0x800 ≤ c.toNat ∨
      s.length = 4 ∧ 0x10000 ≤ c.toNat) : IsCharacter s c.toNat := by
  have hvalid : c.toNat.isValidChar := c.valid
  refine ⟨hs, ?_, by omega, by omega⟩
  intro t ht
  have hroom := ht.length_cases
  omega

theorem isCharacter_utf8EncodeChar (c : Char) :
    IsCharacter (String.utf8EncodeChar c) c.toNat := by
  have hvalid : c.toNat.isValidChar := c.valid
  have hnat : c.val.toNat = c.toNat := rfl
  simp only [String.utf8EncodeChar, hnat]
  split
  · exact (Spells.one (by omega)).isCharacter (.inl rfl)
  · split
    · exact (spells_two (by omega)).isCharacter (.inr (.inl ⟨rfl, by omega⟩))
    · split
      · exact (spells_three (by omega)).isCharacter (.inr (.inr (.inl ⟨rfl, by omega⟩)))
      · exact (spells_four (by omega)).isCharacter (.inr (.inr (.inr ⟨rfl, by omega⟩)))

theorem isCharacter_iff {s : List UInt8} {v : Nat} :
    IsCharacter s v ↔ ∃ c : Char, c.toNat = v ∧ String.utf8EncodeChar c = s := by
  constructor
  · rintro ⟨hs, hshortest, hsurrogate, hrange⟩
    have hvalid : v.isValidChar := by
      unfold Nat.isValidChar
      omega
    have hv : (Char.ofNat v).toNat = v := Text.toNat_ofNat_of_isValidChar hvalid
    have hchar := isCharacter_utf8EncodeChar (Char.ofNat v)
    rw [hv] at hchar
    refine ⟨Char.ofNat v, hv, hchar.whole.eq_of_length_eq hs ?_ rfl⟩
    exact Nat.le_antisymm (hchar.shortest s hs) (hshortest _ hchar.whole)
  · rintro ⟨c, rfl, rfl⟩
    exact isCharacter_utf8EncodeChar c

theorem toList_toUTF8 (text : String) :
    text.toUTF8.data.toList = text.toList.flatMap String.utf8EncodeChar := by
  rw [String.toUTF8_eq_toByteArray, ← String.utf8Encode_toList, List.utf8Encode,
    List.toList_data_toByteArray]

/-- Well-formed bytes are the encoding of a text. -/
theorem wellFormed_iff {bytes : ByteArray} :
    WellFormed bytes ↔ ∃ text : String, text.toUTF8 = bytes := by
  constructor
  · rintro ⟨chars, hbytes, hchars⟩
    have hrange : chars ∈ Set.range (List.map String.utf8EncodeChar) := by
      rw [Set.range_list_map]
      intro s hs
      obtain ⟨code, hcode⟩ := hchars s hs
      obtain ⟨c, -, hc⟩ := isCharacter_iff.mp hcode
      exact ⟨c, hc⟩
    obtain ⟨text, rfl⟩ := hrange
    refine ⟨String.ofList text, ?_⟩
    rw [ByteArray.ext_iff, ← Array.toList_inj, toList_toUTF8, String.toList_ofList, ← hbytes]
    rfl
  · rintro ⟨text, rfl⟩
    refine ⟨text.toList.map String.utf8EncodeChar, ?_, ?_⟩
    · rw [toList_toUTF8]
      rfl
    · intro s hs
      obtain ⟨c, -, rfl⟩ := List.mem_map.mp hs
      exact ⟨c.toNat, isCharacter_utf8EncodeChar c⟩

theorem wellFormed_iff_isValidUTF8 {bytes : ByteArray} :
    WellFormed bytes ↔ bytes.IsValidUTF8 := by
  rw [wellFormed_iff]
  constructor
  · rintro ⟨text, rfl⟩
    exact text.isValidUTF8
  · intro h
    exact ⟨String.fromUTF8 bytes h, rfl⟩

instance (bytes : ByteArray) : Decidable (WellFormed bytes) :=
  decidable_of_iff _ wellFormed_iff_isValidUTF8.symm

/-- One byte too many for its number, a surrogate, a number that is too high, and a byte that is
missing. -/
example : ¬WellFormed ⟨#[0xC0, 0x80]⟩ ∧ ¬WellFormed ⟨#[0xED, 0xA0, 0x80]⟩ ∧
    ¬WellFormed ⟨#[0xF4, 0x90, 0x80, 0x80]⟩ ∧ ¬WellFormed ⟨#[0x41, 0xE2, 0x82]⟩ := by decide

end Lex8086.Utf8
