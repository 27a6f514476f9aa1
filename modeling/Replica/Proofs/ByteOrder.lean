import Mathlib.Tactic.SplitIfs
import Replica.Imports

/-!
The byte order of texts. Texts are compared character by character; their UTF-8 encodings, compared
byte by byte, are in the same order.
-/

namespace Replica

def bytes (text : String) : List UInt8 :=
  text.toUTF8.data.toList

theorem bytes_eq_flatMap (text : String) :
    bytes text = text.toList.flatMap String.utf8EncodeChar := by
  rw [bytes, String.toUTF8, ← String.utf8Encode_toList, List.utf8Encode,
    List.toList_data_toByteArray]

/-- The lesser of two codes is less at the first of their digits in which they differ. Each digit
but the first has six bits. -/
theorem digits_lt {v w : Nat} (below : v < w) :
    v / 262144 < w / 262144 ∨ v / 262144 = w / 262144 ∧
      (v / 4096 % 64 < w / 4096 % 64 ∨ v / 4096 % 64 = w / 4096 % 64 ∧
        (v / 64 % 64 < w / 64 % 64 ∨ v / 64 % 64 = w / 64 % 64 ∧ v % 64 < w % 64)) := by
  have digit : ∀ {v w : Nat}, v < w → v / 64 < w / 64 ∨ v / 64 = w / 64 ∧ v % 64 < w % 64 := by
    omega
  have shift (n : Nat) : n / 4096 = n / 64 / 64 ∧ n / 262144 = n / 64 / 64 / 64 := by
    simp only [Nat.div_div_eq_div_mul, and_self]
  rw [(shift v).1, (shift v).2, (shift w).1, (shift w).2]
  rcases digit below with below | ⟨same, last⟩
  · rcases digit below with below | ⟨same, last⟩
    · rcases digit below with below | ⟨same, last⟩
      · exact .inl below
      · exact .inr ⟨same, .inl last⟩
    · exact .inr ⟨by rw [same], .inr ⟨by rw [same], .inl last⟩⟩
  · exact .inr ⟨by rw [same], .inr ⟨by rw [same], .inr ⟨by rw [same], last⟩⟩⟩

theorem utf8EncodeChar_lt {c d : Char} (below : c < d) (after after' : List UInt8) :
    String.utf8EncodeChar c ++ after < String.utf8EncodeChar d ++ after' := by
  have codes : c.val.toNat < d.val.toNat := below
  have digits := digits_lt codes
  have most : d.val.toNat < 0x110000 := by
    have valid : d.val.toNat < 0xd800 ∨ 0xdfff < d.val.toNat ∧ d.val.toNat < 0x110000 := d.valid
    omega
  have byte : ∀ n < 256, (UInt8.ofNat n).toNat = n := fun n small => UInt8.toNat_ofNat_of_lt small
  have lead : ∀ n < 0x110000, n / 262144 % 8 = n / 262144 := by omega
  simp only [String.utf8EncodeChar]
  generalize c.val.toNat = v at *
  generalize d.val.toNat = w at *
  -- The first byte tells how many there are. It is less where there are fewer, and where there are
  -- as many the bytes are the digits.
  split_ifs
  all_goals simp only [List.cons_append, List.nil_append, List.cons_lt_cons_iff,
    UInt8.lt_iff_toNat_lt, ← UInt8.toNat_inj]
  all_goals simp (disch := omega) only [byte, lead]
  all_goals omega

theorem flatMap_utf8EncodeChar_lt {text other : List Char} (below : text < other) :
    text.flatMap String.utf8EncodeChar < other.flatMap String.utf8EncodeChar := by
  induction below with
  | @nil d rest =>
      rw [List.flatMap_nil, List.flatMap_cons]
      cases encoded : String.utf8EncodeChar d with
      | nil => exact absurd encoded String.utf8EncodeChar_ne_nil
      | cons byte others => exact List.nil_lt_cons _ _
  | rel lower => exact utf8EncodeChar_lt lower _ _
  | cons _ ih => exact List.append_left_lt ih

theorem bytes_lt_bytes {text other : String} : bytes text < bytes other ↔ text < other := by
  have monotone {text other : String} (below : text < other) : bytes text < bytes other := by
    rw [bytes_eq_flatMap, bytes_eq_flatMap]
    exact flatMap_utf8EncodeChar_lt below
  refine ⟨fun below => ?_, monotone⟩
  rcases Std.lt_trichotomy text other with lower | rfl | above
  · exact lower
  · exact absurd below (List.lt_irrefl _)
  · exact absurd (List.lt_trans below (monotone above)) (List.lt_irrefl _)

end Replica
