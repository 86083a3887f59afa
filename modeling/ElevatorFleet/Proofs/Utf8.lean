import ElevatorFleet.Text.Utf8
import Mathlib.Tactic.SplitIfs

/-!
# UTF-8 there and back

A string is decoded from its own bytes (`decode_utf8`). The bytes of a character have one of
four lengths; for each, the first byte announces the length, the others are where `first`
wants them, and the bits put together are the character again.
-/
namespace ElevatorFleet

theorem utf8_eq (s : String) : utf8 s = s.toList.flatMap String.utf8EncodeChar := by
  simp [utf8,← String.utf8Encode_toList,List.utf8Encode]

namespace Utf8
variable {a b : UInt8} {c : Char}

/-! ### Bytes by their numbers -/

theorem width_one (ascii : a.toNat < 0x80) : width a = 1 := by
  simp [width,UInt8.lt_iff_toNat_lt,ascii]

theorem width_two (low : 0xC2 ≤ a.toNat) (high : a.toNat ≤ 0xDF) : width a = 2 := by
  simp only [width,UInt8.lt_iff_toNat_lt,UInt8.le_iff_toNat_le,UInt8.reduceToNat]
  grind

theorem width_three (low : 0xE0 ≤ a.toNat) (high : a.toNat ≤ 0xEF) : width a = 3 := by
  simp only [width,UInt8.lt_iff_toNat_lt,UInt8.le_iff_toNat_le,UInt8.reduceToNat]
  grind

theorem width_four (low : 0xF0 ≤ a.toNat) (high : a.toNat ≤ 0xF4) : width a = 4 := by
  simp only [width,UInt8.lt_iff_toNat_lt,UInt8.le_iff_toNat_le,UInt8.reduceToNat]
  grind

theorem isTail_iff : isTail b = true ↔ 0x80 ≤ b.toNat ∧ b.toNat ≤ 0xBF := by
  simp [isTail,UInt8.le_iff_toNat_le]

theorem isSecond_iff : isSecond a b = true ↔ 0x80 ≤ b.toNat ∧ b.toNat ≤ 0xBF ∧ (a.toNat = 0xE0 → 0xA0 ≤ b.toNat) ∧
    (a.toNat = 0xED → b.toNat ≤ 0x9F) ∧ (a.toNat = 0xF0 → 0x90 ≤ b.toNat) ∧
    (a.toNat = 0xF4 → b.toNat ≤ 0x8F) := by
  simp only [isSecond,← UInt8.toNat_inj,UInt8.le_iff_toNat_le,UInt8.reduceToNat]
  split_ifs <;> simp [isTail_iff] <;> omega

/-! ### One character -/

theorem first_one {rest : Bytes} (ascii : a.toNat < 0x80) : first a rest = .ok (Char.ofNat a.toNat,1) := by
  unfold first
  dsimp only
  rw [width_one ascii]
  rfl

theorem first_two {rest : Bytes} (low : 0xC2 ≤ a.toNat) (high : a.toNat ≤ 0xDF) (second : isTail b = true) :
    first a (b :: rest) = .ok (Char.ofNat (a.toNat % 32 * 64 + b.toNat % 64),2) := by
  unfold first
  dsimp only
  rw [width_two low high]
  exact if_pos second

theorem first_three {d : UInt8} {rest : Bytes} (low : 0xE0 ≤ a.toNat) (high : a.toNat ≤ 0xEF)
    (second : isSecond a b = true) (third : isTail d = true) :
    first a (b :: d :: rest) = .ok (Char.ofNat ((a.toNat % 16 * 64 + b.toNat % 64) * 64 + d.toNat % 64),3) := by
  unfold first
  dsimp only
  rw [width_three low high]
  exact (if_neg (by simp [second])).trans (if_pos third)

theorem first_four {d e : UInt8} {rest : Bytes} (low : 0xF0 ≤ a.toNat) (high : a.toNat ≤ 0xF4)
    (second : isSecond a b = true) (third : isTail d = true) (fourth : isTail e = true) :
    first a (b :: d :: e :: rest) =
      .ok (Char.ofNat (((a.toNat % 8 * 64 + b.toNat % 64) * 64 + d.toNat % 64) * 64 + e.toNat % 64),4) := by
  unfold first
  dsimp only
  rw [width_four low high]
  exact (if_neg (by simp [second])).trans ((if_neg (by simp [third])).trans (if_pos fourth))

/-- With anything after them, the bytes start with the character and no more. -/
def Spells (bytes : Bytes) (c : Char) : Prop :=
  ∃ a tail, bytes = a :: tail ∧ ∀ rest, first a (tail ++ rest) = .ok (c,tail.length + 1)

theorem spells_one (one : c.toNat ≤ 0x7F) : Spells (String.utf8EncodeChar c) c := by
  refine ⟨.ofNat c.toNat,[],by simp [String.utf8EncodeChar,one],fun rest => ?_⟩
  have number : (UInt8.ofNat c.toNat).toNat = c.toNat := by rw [UInt8.toNat_ofNat']; omega
  rw [first_one (by omega),number,Char.ofNat_toNat]
  rfl

theorem spells_two (one : ¬ c.toNat ≤ 0x7F) (two : c.toNat ≤ 0x7FF) : Spells (String.utf8EncodeChar c) c := by
  refine ⟨.ofNat (c.toNat / 64 % 32 + 192),[.ofNat (c.toNat % 64 + 128)],
    by simp [String.utf8EncodeChar,one,two],fun rest => ?_⟩
  refine (first_two ?_ ?_ ?_).trans ?_ <;> simp only [isTail_iff,UInt8.toNat_ofNat']
  · omega
  · omega
  · omega
  · have joined : (c.toNat / 64 % 32 + 192) % 2 ^ 8 % 32 * 64 + (c.toNat % 64 + 128) % 2 ^ 8 % 64 = c.toNat := by omega
    rw [joined,Char.ofNat_toNat]
    rfl

theorem spells_three (two : ¬ c.toNat ≤ 0x7FF) (three : c.toNat ≤ 0xFFFF) : Spells (String.utf8EncodeChar c) c := by
  have one : ¬ c.toNat ≤ 0x7F := by omega
  have valid : c.toNat < 0xD800 ∨ 0xDFFF < c.toNat ∧ c.toNat < 0x110000 := c.valid
  refine ⟨.ofNat (c.toNat / 4096 % 16 + 224),[.ofNat (c.toNat / 64 % 64 + 128),.ofNat (c.toNat % 64 + 128)],
    by simp [String.utf8EncodeChar,one,two,three],fun rest => ?_⟩
  refine (first_three ?_ ?_ ?_ ?_).trans ?_ <;> simp only [isTail_iff,isSecond_iff,UInt8.toNat_ofNat']
  · omega
  · omega
  · omega
  · omega
  · have joined : ((c.toNat / 4096 % 16 + 224) % 2 ^ 8 % 16 * 64 + (c.toNat / 64 % 64 + 128) % 2 ^ 8 % 64) * 64 +
        (c.toNat % 64 + 128) % 2 ^ 8 % 64 = c.toNat := by omega
    rw [joined,Char.ofNat_toNat]
    rfl

theorem spells_four (three : ¬ c.toNat ≤ 0xFFFF) : Spells (String.utf8EncodeChar c) c := by
  have two : ¬ c.toNat ≤ 0x7FF := by omega
  have one : ¬ c.toNat ≤ 0x7F := by omega
  have valid : c.toNat < 0xD800 ∨ 0xDFFF < c.toNat ∧ c.toNat < 0x110000 := c.valid
  refine ⟨.ofNat (c.toNat / 262144 % 8 + 240),
    [.ofNat (c.toNat / 4096 % 64 + 128),.ofNat (c.toNat / 64 % 64 + 128),.ofNat (c.toNat % 64 + 128)],
    by simp [String.utf8EncodeChar,one,two,three],fun rest => ?_⟩
  refine (first_four ?_ ?_ ?_ ?_ ?_).trans ?_ <;> simp only [isTail_iff,isSecond_iff,UInt8.toNat_ofNat']
  · omega
  · omega
  · omega
  · omega
  · omega
  · have joined : (((c.toNat / 262144 % 8 + 240) % 2 ^ 8 % 8 * 64 + (c.toNat / 4096 % 64 + 128) % 2 ^ 8 % 64) * 64 +
        (c.toNat / 64 % 64 + 128) % 2 ^ 8 % 64) * 64 + (c.toNat % 64 + 128) % 2 ^ 8 % 64 = c.toNat := by omega
    rw [joined,Char.ofNat_toNat]
    rfl

theorem spells_encode (c : Char) : Spells (String.utf8EncodeChar c) c := by
  by_cases one : c.toNat ≤ 0x7F
  · exact spells_one one
  by_cases two : c.toNat ≤ 0x7FF
  · exact spells_two one two
  by_cases three : c.toNat ≤ 0xFFFF
  · exact spells_three two three
  · exact spells_four three

/-! ### A whole string -/

theorem chars_encode (cs : List Char) (index : Nat) (before : List Char) :
    chars index before (cs.flatMap String.utf8EncodeChar) = .ok (before.reverse ++ cs) := by
  induction cs generalizing index before with
  | nil => rw [List.flatMap_nil,chars,List.append_nil]
  | cons c cs ih =>
    obtain ⟨a,tail,bytes,whole⟩ := spells_encode c
    rw [List.flatMap_cons,bytes,List.cons_append,chars,whole]
    show chars (index + (tail.length + 1)) (c :: before) ((tail ++ cs.flatMap String.utf8EncodeChar).drop tail.length) = _
    rw [List.drop_left,ih,List.reverse_cons,List.append_assoc]
    rfl

/-- A string is decoded from its bytes. -/
theorem decode_utf8 (s : String) : decode (utf8 s) = .ok s := by
  rw [decode,utf8_eq,chars_encode]
  exact congrArg Except.ok s.ofList_toList

end Utf8
end ElevatorFleet
