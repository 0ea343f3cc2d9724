import CellScheme.Proofs.Reading.RoundTrip

/-!
The bytes of a text determine it: each character is written in one of four forms, no form begins
like another, and reading the bytes finds the characters again, whatever bytes follow.
-/

namespace CellScheme.Text

theorem glyphs_two {a b : UInt8} {c : Char} (h : two? a b = some c) (bs : Bytes) :
    glyphs (a :: b :: bs) = .char c :: glyphs bs := by
  match bs with
  | [] => simp [glyphs, h]
  | [_] => simp [glyphs, h]
  | _ :: _ :: _ => simp [glyphs, h]

theorem glyphs_three {a b c : UInt8} {ch : Char} (h₂ : two? a b = none)
    (h : three? a b c = some ch) (bs : Bytes) :
    glyphs (a :: b :: c :: bs) = .char ch :: glyphs bs := by
  match bs with
  | [] => simp [glyphs, h₂, h]
  | _ :: _ => simp [glyphs, h₂, h]

theorem glyphs_four {a b c d : UInt8} {ch : Char} (h₂ : two? a b = none)
    (h₃ : three? a b c = none) (h : four? a b c d = some ch) (bs : Bytes) :
    glyphs (a :: b :: c :: d :: bs) = .char ch :: glyphs bs := by
  simp [glyphs, h₂, h₃, h]

theorem two?_eq_none {a : UInt8} (h : 0xE0 ≤ a.toNat) (b : UInt8) : two? a b = none := by
  refine if_neg fun ha => ?_
  simp only [Bool.and_eq_true, decide_eq_true_eq, UInt8.lt_iff_toNat_lt] at ha
  exact Nat.not_lt.mpr h ha.2

theorem three?_eq_none {a : UInt8} (h : 0xF0 ≤ a.toNat) (b c : UInt8) :
    three? a b c = none := by
  refine if_neg fun ha => ?_
  simp only [Bool.and_eq_true, decide_eq_true_eq, UInt8.lt_iff_toNat_lt] at ha
  exact Nat.not_lt.mpr h ha.2

theorem charOf?_eq_some {least lead : Nat} {tail : List UInt8} {c : Char}
    (htail : ∀ b ∈ tail, 0x80 ≤ b.toNat ∧ b.toNat < 0xC0) (hleast : least ≤ c.toNat)
    (hval : tail.foldl (fun n b => 64 * n + (b.toNat - 0x80)) lead = c.toNat) :
    charOf? least lead tail = some c := by
  have hall : tail.all isContinuation = true := by
    simpa [isContinuation, UInt8.le_iff_toNat_le, UInt8.lt_iff_toNat_lt] using htail
  have hvalid : c.toNat.isValidChar := c.valid
  simp only [charOf?, hval, hall, hleast, hvalid, decide_true, Bool.and_self, if_true,
    Char.ofNat_toNat]

theorem toNat_lt (c : Char) : c.toNat < 0x110000 := by
  have hvalid : c.toNat.isValidChar := c.valid
  rcases hvalid with h | h <;> omega

theorem encodeChar_one {c : Char} (h : c.toNat < 0x80) :
    String.utf8EncodeChar c = [UInt8.ofNat c.toNat] :=
  if_pos (Nat.le_of_lt_succ h)

theorem encodeChar_two {c : Char} (h : 0x80 ≤ c.toNat) (h' : c.toNat < 0x800) :
    String.utf8EncodeChar c =
      [UInt8.ofNat (c.toNat / 64 + 0xC0), UInt8.ofNat (c.toNat % 64 + 0x80)] := by
  have hlead : c.toNat / 64 % 32 = c.toNat / 64 := Nat.mod_eq_of_lt (by omega)
  have hdef : String.utf8EncodeChar c = _ :=
    (if_neg (Nat.not_le.mpr h)).trans (if_pos (Nat.le_of_lt_succ h'))
  rw [hdef, ← hlead]
  rfl

theorem encodeChar_three {c : Char} (h : 0x800 ≤ c.toNat) (h' : c.toNat < 0x10000) :
    String.utf8EncodeChar c =
      [UInt8.ofNat (c.toNat / 4096 + 0xE0), UInt8.ofNat (c.toNat / 64 % 64 + 0x80),
        UInt8.ofNat (c.toNat % 64 + 0x80)] := by
  have hlead : c.toNat / 4096 % 16 = c.toNat / 4096 := Nat.mod_eq_of_lt (by omega)
  have hdef : String.utf8EncodeChar c = _ :=
    (if_neg (Nat.not_le.mpr (Nat.le_trans (by decide) h))).trans
      ((if_neg (Nat.not_le.mpr h)).trans (if_pos (Nat.le_of_lt_succ h')))
  rw [hdef, ← hlead]
  rfl

theorem encodeChar_four {c : Char} (h : 0x10000 ≤ c.toNat) :
    String.utf8EncodeChar c =
      [UInt8.ofNat (c.toNat / 262144 + 0xF0), UInt8.ofNat (c.toNat / 4096 % 64 + 0x80),
        UInt8.ofNat (c.toNat / 64 % 64 + 0x80), UInt8.ofNat (c.toNat % 64 + 0x80)] := by
  have hlead : c.toNat / 262144 % 8 = c.toNat / 262144 :=
    Nat.mod_eq_of_lt (by have := toNat_lt c; omega)
  have hdef : String.utf8EncodeChar c = _ :=
    (if_neg (Nat.not_le.mpr (Nat.le_trans (by decide) h))).trans
      ((if_neg (Nat.not_le.mpr (Nat.le_trans (by decide) h))).trans
        (if_neg (Nat.not_le.mpr h)))
  rw [hdef, ← hlead]
  rfl

theorem toNat_ofNat {n : Nat} (h : n < 256) : (UInt8.ofNat n).toNat = n :=
  UInt8.toNat_ofNat_of_lt' h

/-- A character is read off its bytes, whatever follows them. -/
theorem glyphs_encodeChar (c : Char) (bs : Bytes) :
    glyphs (String.utf8EncodeChar c ++ bs) = .char c :: glyphs bs := by
  have hmax := toNat_lt c
  by_cases h₁ : c.toNat < 0x80
  · rw [encodeChar_one h₁, List.singleton_append, glyphs_ascii, toNat_ofNat (by omega),
      Char.ofNat_toNat]
    rw [UInt8.lt_iff_toNat_lt, toNat_ofNat (by omega)]
    exact h₁
  have hlast := toNat_ofNat (n := c.toNat % 64 + 0x80) (by omega)
  by_cases h₂ : c.toNat < 0x800
  · have hlead := toNat_ofNat (n := c.toNat / 64 + 0xC0) (by omega)
    rw [encodeChar_two (by omega) h₂]
    apply glyphs_two
    rw [two?, if_pos (by simp [UInt8.le_iff_toNat_le, UInt8.lt_iff_toNat_lt]; omega)]
    apply charOf?_eq_some
    · simp; omega
    · omega
    · simp only [List.foldl, hlead, hlast]; omega
  have hmid := toNat_ofNat (n := c.toNat / 64 % 64 + 0x80) (by omega)
  by_cases h₃ : c.toNat < 0x10000
  · have hlead := toNat_ofNat (n := c.toNat / 4096 + 0xE0) (by omega)
    rw [encodeChar_three (by omega) h₃]
    apply glyphs_three (two?_eq_none (by omega) _)
    rw [three?, if_pos (by simp [UInt8.le_iff_toNat_le, UInt8.lt_iff_toNat_lt]; omega)]
    apply charOf?_eq_some
    · simp; omega
    · omega
    · simp only [List.foldl, hlead, hmid, hlast]; omega
  · have hlead := toNat_ofNat (n := c.toNat / 262144 + 0xF0) (by omega)
    have hnext := toNat_ofNat (n := c.toNat / 4096 % 64 + 0x80) (by omega)
    rw [encodeChar_four (by omega)]
    apply glyphs_four (two?_eq_none (by omega) _) (three?_eq_none (by omega) _ _)
    rw [four?, if_pos (by simp [UInt8.le_iff_toNat_le, UInt8.lt_iff_toNat_lt]; omega)]
    apply charOf?_eq_some
    · simp; omega
    · omega
    · simp only [List.foldl, hlead, hnext, hmid, hlast]; omega

/-- Only ASCII characters have bytes below `0x80`. -/
theorem le_of_mem_encodeChar {c : Char} (h : 0x80 ≤ c.toNat) {b : UInt8}
    (hb : b ∈ String.utf8EncodeChar c) : 0x80 ≤ b.toNat := by
  have hmax := toNat_lt c
  have hbyte : ∀ n, 0x80 ≤ n → n < 256 → b = UInt8.ofNat n → 0x80 ≤ b.toNat := by
    rintro n hn hn' rfl
    rwa [toNat_ofNat hn']
  by_cases h₂ : c.toNat < 0x800
  · rw [encodeChar_two h h₂] at hb
    simp only [List.mem_cons, List.not_mem_nil, or_false] at hb
    rcases hb with hb | hb <;> exact hbyte _ (by omega) (by omega) hb
  · by_cases h₃ : c.toNat < 0x10000
    · rw [encodeChar_three (by omega) h₃] at hb
      simp only [List.mem_cons, List.not_mem_nil, or_false] at hb
      rcases hb with hb | hb | hb <;> exact hbyte _ (by omega) (by omega) hb
    · rw [encodeChar_four (by omega)] at hb
      simp only [List.mem_cons, List.not_mem_nil, or_false] at hb
      rcases hb with hb | hb | hb | hb <;> exact hbyte _ (by omega) (by omega) hb

theorem glyphs_encode (cs : List Char) (bs : Bytes) :
    glyphs (cs.flatMap String.utf8EncodeChar ++ bs) = cs.map .char ++ glyphs bs := by
  induction cs with
  | nil => rfl
  | cons c cs ih =>
      rw [List.flatMap_cons, List.append_assoc, glyphs_encodeChar, ih, List.map_cons,
        List.cons_append]

theorem glyphs_utf8 (s : String) : glyphs (utf8 s) = s.toList.map .char := by
  have h := glyphs_encode s.toList []
  rwa [List.append_nil, glyphs, List.append_nil] at h

end CellScheme.Text
