namespace Lex8086.Text

def byteLength : List Char → Nat
  | [] => 0
  | c :: s => c.utf8Size + byteLength s

theorem byteLength_append (s t : List Char) :
    byteLength (s ++ t) = byteLength s + byteLength t := by
  induction s with
  | nil => simp [byteLength]
  | cons c s ih => simp [byteLength, ih, Nat.add_assoc]

theorem size_utf8Encode (s : List Char) : s.utf8Encode.size = byteLength s := by
  induction s with
  | nil => rfl
  | cons c s ih => simp [List.utf8Encode_cons (l := s), List.utf8Encode_singleton, byteLength, ih]

theorem byteLength_toList (s : String) : byteLength s.toList = s.utf8ByteSize := by
  rw [← size_utf8Encode, String.utf8Encode_toList, String.size_toByteArray]

end Lex8086.Text
