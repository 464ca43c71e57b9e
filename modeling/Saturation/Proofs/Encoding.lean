import Mathlib.Tactic.SplitIfs
import Saturation.Trace.Ingest

/-!
Texts as bytes. A character other than a line feed has no byte that is one, so the lines of a text are
those of its bytes.
-/

set_option autoImplicit false

namespace Saturation

theorem toList_loop (b : ByteArray) (i : Nat) (r : List UInt8) :
    ByteArray.toList.loop b i r = r.reverse ++ b.data.toList.drop i := by
  fun_induction ByteArray.toList.loop b i r with
  | case1 i r h ih =>
    have hi : i < b.data.toList.length := by simpa using h
    rw [ih, List.drop_eq_getElem_cons hi]
    simp [ByteArray.get!, h]
  | case2 i r h =>
    rw [List.drop_eq_nil_of_le (by simpa using h)]
    simp

theorem toList_eq_data (b : ByteArray) : b.toList = b.data.toList := by
  rw [ByteArray.toList, toList_loop]
  rfl

theorem decode_toUTF8 (text : String) : Trace.decode text.toUTF8.toList = some text := by
  have hbytes : (⟨text.toUTF8.toList.toArray⟩ : ByteArray) = text.toByteArray := by
    rw [toList_eq_data]
    rfl
  rw [Trace.decode, hbytes, String.fromUTF8?, dif_pos text.isValidUTF8]
  rfl

/-- The bytes of characters. -/
def utf8 (cs : List Char) : List UInt8 := cs.flatMap String.utf8EncodeChar

theorem toUTF8_toList (text : String) : text.toUTF8.toList = utf8 text.toList := by
  have hbytes : text.toByteArray = text.toList.utf8Encode := by
    rw [← String.toByteArray_ofList, String.ofList_toList]
  rw [String.toUTF8, toList_eq_data, hbytes, List.utf8Encode]
  simp [utf8]

theorem decode_utf8 (cs : List Char) : Trace.decode (utf8 cs) = some (String.ofList cs) := by
  have h := decode_toUTF8 (String.ofList cs)
  rwa [toUTF8_toList, String.toList_ofList] at h

theorem feed_not_mem_utf8EncodeChar {c : Char} (h : c ≠ '\n') : 10 ∉ String.utf8EncodeChar c := by
  have hne : c.val.toNat ≠ 10 := fun h10 => h (Char.ext (UInt32.toNat_inj.mp h10))
  have hbyte : ∀ n : Nat, n ≠ 10 → n < 256 → (10 : UInt8) ≠ UInt8.ofNat n := by
    intro n hn hlt heq
    have htoNat := congrArg UInt8.toNat heq
    rw [UInt8.toNat_ofNat_of_lt' hlt] at htoNat
    exact hn htoNat.symm
  -- The bytes of a character that has several are all at least 128.
  unfold String.utf8EncodeChar
  dsimp only
  split_ifs
  all_goals
    simp (disch := omega) only [List.mem_cons, List.not_mem_nil, hbyte, or_self, not_false_eq_true]

end Saturation
