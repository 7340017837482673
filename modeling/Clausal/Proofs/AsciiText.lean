import Clausal.Text.Utf8

/-!
# ASCII text as bytes

Text of ASCII characters has one byte for each character, and decoding gives it back.
-/

set_option autoImplicit false

namespace Clausal.Utf8

def asciiBytes (text : List Char) : List UInt8 := text.map fun c => c.val.toUInt8

theorem toNat_asciiByte {c : Char} (ascii : c.toNat < 128) : c.val.toUInt8.toNat = c.toNat := by
  rw [UInt32.toNat_toUInt8]
  exact Nat.mod_eq_of_lt (Nat.lt_trans ascii (by decide))

/-! ## Encoding -/

theorem toList_loop (bytes : ByteArray) (index : Nat) (done : List UInt8) :
    ByteArray.toList.loop bytes index done = done.reverse ++ bytes.data.toList.drop index := by
  fun_induction ByteArray.toList.loop bytes index done with
  | case1 index done inside inductionHypothesis =>
      have inList : index < bytes.data.toList.length := by simpa using inside
      have isByte : bytes.get! index = bytes.data.toList[index] :=
        getElem!_pos bytes.data index inside
      rw [inductionHypothesis, List.drop_eq_getElem_cons inList, List.reverse_cons,
        List.append_assoc, List.singleton_append, isByte]
  | case2 index done outside =>
      have beyond : bytes.data.toList.length ≤ index := by simpa using outside
      rw [List.drop_of_length_le beyond, List.append_nil]

theorem toList_eq (bytes : ByteArray) : bytes.toList = bytes.data.toList :=
  toList_loop bytes 0 []

theorem utf8Encode_ascii {text : List Char} (ascii : ∀ c ∈ text, c.toNat < 128) :
    text.utf8Encode = (asciiBytes text).toByteArray := by
  induction text with
  | nil => rfl
  | cons c rest inductionHypothesis =>
      have small : c.utf8Size = 1 := by
        rw [Char.utf8Size_eq_one_iff, UInt32.le_iff_toNat_le]
        exact Nat.le_of_lt_succ (ascii c (by simp))
      have restAscii : ∀ d ∈ rest, d.toNat < 128 := fun d member => ascii d (by simp [member])
      rw [List.utf8Encode_cons, List.utf8Encode_singleton, String.utf8EncodeChar_eq_singleton small,
        inductionHypothesis restAscii, ← List.toByteArray_append]
      rfl

theorem encode_ascii {text : List Char} (ascii : ∀ c ∈ text, c.toNat < 128) :
    encode (String.ofList text) = asciiBytes text := by
  rw [encode, toList_eq, String.toUTF8_eq_toByteArray, String.toByteArray_ofList,
    utf8Encode_ascii ascii, List.toList_data_toByteArray]

/-! ## Decoding -/

theorem decodeLossy_ascii {text : List Char} (ascii : ∀ c ∈ text, c.toNat < 128) :
    decodeLossy (asciiBytes text) = text := by
  induction text with
  | nil => rfl
  | cons c rest inductionHypothesis =>
      have small : c.toNat < 128 := ascii c (by simp)
      have restAscii : ∀ d ∈ rest, d.toNat < 128 := fun d member => ascii d (by simp [member])
      have first : read none c.val.toUInt8.toNat = ([c], none) := by
        rw [toNat_asciiByte small, read, first, if_pos small, Char.ofNat_toNat]
      rw [asciiBytes, List.map_cons, decodeLossy, decodeFrom, first]
      exact congrArg (c :: ·) (inductionHypothesis restAscii)

end Clausal.Utf8
