import Mathlib.Data.List.Basic

/-! Base64 with the standard alphabet and padding. -/

namespace Base64

def digit (n : ℕ) : UInt8 :=
  if n < 26 then 0x41 + n.toUInt8
  else if n < 52 then 0x61 + (n - 26).toUInt8
  else if n < 62 then 0x30 + (n - 52).toUInt8
  else if n = 62 then 0x2b
  else 0x2f

def padding : UInt8 := 0x3d

def encode : List UInt8 → List UInt8
  -- three bytes make four characters; what is missing in the last three shows as padding
  | [] => []
  | [a] => [digit (a.toNat / 4), digit (a.toNat % 4 * 16), padding, padding]
  | [a, b] =>
    [digit (a.toNat / 4), digit (a.toNat % 4 * 16 + b.toNat / 16), digit (b.toNat % 16 * 4),
      padding]
  | a :: b :: c :: rest =>
    digit (a.toNat / 4) :: digit (a.toNat % 4 * 16 + b.toNat / 16) ::
      digit (b.toNat % 16 * 4 + c.toNat / 64) :: digit (c.toNat % 64) :: encode rest

theorem le_digit (n : ℕ) : 0x2b ≤ digit n := by
  have hsmall : ∀ m < 62, 0x2b ≤ digit m := by decide
  by_cases hn : n < 62
  · exact hsmall n hn
  · rw [digit, if_neg (by omega), if_neg (by omega), if_neg hn]
    split_ifs <;> decide

theorem le_of_mem_encode {bytes : List UInt8} {c : UInt8} (h : c ∈ encode bytes) : 0x2b ≤ c := by
  have hpadding : 0x2b ≤ padding := by decide
  induction bytes using encode.induct with
  | case1 => cases h
  | case2 a =>
    simp only [encode, List.mem_cons, List.not_mem_nil, or_false] at h
    rcases h with rfl | rfl | rfl | rfl
    · exact le_digit _
    · exact le_digit _
    · exact hpadding
    · exact hpadding
  | case3 a b =>
    simp only [encode, List.mem_cons, List.not_mem_nil, or_false] at h
    rcases h with rfl | rfl | rfl | rfl
    · exact le_digit _
    · exact le_digit _
    · exact le_digit _
    · exact hpadding
  | case4 a b c rest ih =>
    simp only [encode, List.mem_cons] at h
    rcases h with rfl | rfl | rfl | rfl | h
    · exact le_digit _
    · exact le_digit _
    · exact le_digit _
    · exact le_digit _
    · exact ih h

end Base64
