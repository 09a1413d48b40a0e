/-!
Texts of ASCII characters. Each character is one byte, its code, so lengths in bytes are lengths in
characters and what is read at a byte is what stands at the character.
-/
namespace LazyCast

def Ascii (text : String) : Prop := ∀ c ∈ text.toList, c.toNat < 128

instance (text : String) : Decidable (Ascii text) :=
  List.decidableBAll (fun c : Char => c.toNat < 128) text.toList

theorem toList_loop (bs : ByteArray) (i : Nat) (r : List UInt8) :
    ByteArray.toList.loop bs i r = r.reverse ++ bs.data.toList.drop i := by
  fun_induction ByteArray.toList.loop bs i r with
  | case1 i r more ih =>
    have inside : i < bs.data.toList.length := by simpa using more
    have read : bs.get! i = bs.data[i]! := by
      cases bs
      rfl
    rw [ih, List.drop_eq_getElem_cons inside, read, getElem!_pos bs.data i more]
    simp
  | case2 i r beyond =>
    rw [List.drop_eq_nil_of_le (by simpa using Nat.le_of_not_lt beyond)]
    simp

theorem toList_bytes (bs : ByteArray) : bs.toList = bs.data.toList := toList_loop bs 0 []

namespace Ascii
variable {text : String}

theorem toUTF8 (ascii : Ascii text) :
    text.toUTF8.toList = text.toList.map fun c => c.toNat.toUInt8 := by
  have single : ∀ c ∈ text.toList, String.utf8EncodeChar c = [c.toNat.toUInt8] := by
    intro c mem
    have small := ascii c mem
    have one : c.utf8Size = 1 := by
      rw [Char.utf8Size_eq_one_iff, UInt32.le_iff_toNat_le]
      exact Nat.le_of_lt_succ small
    rw [String.utf8EncodeChar_eq_singleton one]
    rfl
  have encoded : text.toUTF8.toList = text.toList.flatMap String.utf8EncodeChar := by
    have bytes : text.toByteArray = text.toList.utf8Encode := by
      rw [← String.toByteArray_ofList, String.ofList_toList]
    rw [toList_bytes, String.toUTF8_eq_toByteArray, bytes, List.utf8Encode,
      List.toList_data_toByteArray]
  rw [encoded]
  generalize text.toList = cs at single
  induction cs with
  | nil => rfl
  | cons c cs ih =>
    rw [List.flatMap_cons, single c List.mem_cons_self,
      ih fun d mem => single d (List.mem_cons_of_mem c mem)]
    rfl

theorem utf8ByteSize (ascii : Ascii text) : text.utf8ByteSize = text.length := by
  have size : text.toUTF8.toList.length = text.length := by
    rw [ascii.toUTF8, List.length_map]
    rfl
  rw [toList_bytes, Array.length_toList] at size
  exact size

theorem ofNat_toUInt8 {c : Char} (small : c.toNat < 128) :
    Char.ofNat c.toNat.toUInt8.toNat = c := by
  have whole : c.toNat.toUInt8.toNat = c.toNat := by
    rw [Nat.toUInt8_eq, UInt8.toNat_ofNat']
    omega
  rw [whole, Char.ofNat_toNat]

end Ascii
end LazyCast
