import LineSearch.Text.Utf8

/-! # Encodings and their beginnings

The encoding of a character is a first byte, which tells how many follow, and then a
byte of the range `80` to `BF` for every six bits that are left (`encodeChar_eq`).

What the decoder keeps of a character begun is a range of numbers.  After the bytes
`part` it is right (`Unfinished.Follows`) if the characters numbered in that range are
those whose encodings begin with `part`.  It is right after a first byte
(`Unfinished.follows_of_lead`) and stays so with every byte in the range given for it
(`Unfinished.Follows.next`); with any other byte no encoding goes on
(`Unfinished.Follows.begins_concat_iff`).
-/
namespace LineSearch.Utf8

theorem toNat_ofNat_of_valid {number : Nat} (h : number.isValidChar) :
    (Char.ofNat number).toNat = number := by
  rw [Char.ofNat, dif_pos h]
  rfl

/-! ### Encodings -/

/-- How many bytes stand behind the first one in the encoding of a character. -/
def tailLength (number : Nat) : Nat :=
  if number < 0x80 then 0 else if number < 0x800 then 1 else if number < 0x10000 then 2 else 3

/-- The first byte of the encoding of a character, as a number. -/
def firstByte (number : Nat) : Nat :=
  if number < 0x80 then number
  else if number < 0x800 then number / 64 + 0xC0
  else if number < 0x10000 then number / 4096 + 0xE0
  else number / 262144 + 0xF0

/-- What is left of a number when its last six bits are taken off, so many times. -/
def leading (number : Nat) : (count : Nat) → Nat
  | 0 => number
  | count + 1 => leading number count / 64

theorem exists_leading_eq (value count : Nat) : ∃ number, leading number count = value := by
  induction count generalizing value with
  | zero => exact ⟨value, rfl⟩
  | succ count ih =>
    obtain ⟨number, hnumber⟩ := ih (value * 64)
    refine ⟨number, ?_⟩
    rw [leading, hnumber]
    omega

/-- The last bytes, so many of them, of the encoding of a character. -/
def continuation (number : Nat) : (count : Nat) → Bytes
  | 0 => []
  | count + 1 => UInt8.ofNat (leading number count % 64 + 0x80) :: continuation number count

theorem encodeChar_eq (c : Char) : String.utf8EncodeChar c =
    UInt8.ofNat (firstByte c.toNat) :: continuation c.toNat (tailLength c.toNat) := by
  have hnumber : c.val.toNat = c.toNat := rfl
  have hvalid : c.toNat.isValidChar := c.valid
  rw [String.utf8EncodeChar, hnumber, firstByte, tailLength]
  by_cases h1 : c.toNat < 0x80
  · rw [if_pos h1, if_pos h1, if_pos (by omega)]
    rfl
  rw [if_neg h1, if_neg h1, if_neg (by omega)]
  by_cases h2 : c.toNat < 0x800
  · rw [if_pos h2, if_pos h2, if_pos (by omega), Nat.mod_eq_of_lt (a := c.toNat / 64) (by omega)]
    simp [continuation, leading]
  rw [if_neg h2, if_neg h2, if_neg (by omega)]
  by_cases h3 : c.toNat < 0x10000
  · rw [if_pos h3, if_pos h3, if_pos (by omega), Nat.mod_eq_of_lt (a := c.toNat / 4096) (by omega)]
    simp [continuation, leading]
  · rw [if_neg h3, if_neg h3, if_neg (by omega),
      Nat.mod_eq_of_lt (a := c.toNat / 262144) (by omega)]
    simp [continuation, leading, Nat.div_div_eq_div_mul]

/-- The four lengths of encodings. -/
theorem length_cases (number : Nat) :
    (number < 0x80 ∧ firstByte number = number ∧ tailLength number = 0) ∨
    (0x80 ≤ number ∧ number < 0x800 ∧ firstByte number = number / 64 + 0xC0 ∧
      tailLength number = 1) ∨
    (0x800 ≤ number ∧ number < 0x10000 ∧ firstByte number = number / 4096 + 0xE0 ∧
      tailLength number = 2) ∨
    (0x10000 ≤ number ∧ firstByte number = number / 262144 + 0xF0 ∧ tailLength number = 3) := by
  rw [firstByte, tailLength]
  by_cases h1 : number < 0x80
  · rw [if_pos h1, if_pos h1]
    omega
  by_cases h2 : number < 0x800
  · rw [if_neg h1, if_neg h1, if_pos h2, if_pos h2]
    omega
  by_cases h3 : number < 0x10000
  · rw [if_neg h1, if_neg h1, if_neg h2, if_neg h2, if_pos h3, if_pos h3]
    omega
  · rw [if_neg h1, if_neg h1, if_neg h2, if_neg h2, if_neg h3, if_neg h3]
    omega

theorem firstByte_lt {number : Nat} (h : number.isValidChar) : firstByte number < 0xF5 := by
  have := length_cases number
  rw [Nat.isValidChar] at h
  omega

theorem le_firstByte {number : Nat} (h : 0x80 ≤ number) : 0x80 ≤ firstByte number := by
  have := length_cases number
  omega

/-- No encoding begins with a byte from `80` to `C1`. -/
theorem firstByte_gap (number : Nat) : ¬ (0x80 ≤ firstByte number ∧ firstByte number < 0xC2) := by
  have := length_cases number
  omega

theorem le_of_mem_continuation {number count : Nat} {b : UInt8}
    (h : b ∈ continuation number count) : 0x80 ≤ b.toNat := by
  induction count with
  | zero => cases h
  | succ count ih =>
    rcases List.mem_cons.mp h with rfl | h
    · rw [UInt8.toNat_ofNat']
      omega
    · exact ih h

theorem lt_of_mem_continuation {number count : Nat} {b : UInt8}
    (h : b ∈ continuation number count) : b.toNat < 0xC0 := by
  induction count with
  | zero => cases h
  | succ count ih =>
    rcases List.mem_cons.mp h with rfl | h
    · rw [UInt8.toNat_ofNat']
      omega
    · exact ih h

/-- A character of ASCII is encoded as a single byte. -/
theorem encodeChar_of_lt {c : Char} (h : c.toNat < 0x80) :
    String.utf8EncodeChar c = [UInt8.ofNat c.toNat] := by
  rw [encodeChar_eq, firstByte, tailLength, if_pos h, if_pos h]
  rfl

/-- A byte of ASCII is the encoding of a character. -/
theorem encodeChar_ofNat {b : UInt8} (h : b.toNat < 0x80) :
    String.utf8EncodeChar (Char.ofNat b.toNat) = [b] := by
  have hnumber := toNat_ofNat_of_valid (.inl (by omega) : b.toNat.isValidChar)
  rw [encodeChar_of_lt (by rwa [hnumber]), hnumber, UInt8.ofNat_toNat]

/-- No byte of the encoding of another character is one of ASCII. -/
theorem le_of_mem_encodeChar {c : Char} (h : 0x80 ≤ c.toNat) {b : UInt8}
    (hb : b ∈ String.utf8EncodeChar c) : 0x80 ≤ b.toNat := by
  rw [encodeChar_eq] at hb
  rcases List.mem_cons.mp hb with rfl | hb
  · have hlt : firstByte c.toNat < 0xF5 := firstByte_lt c.valid
    have hle := le_firstByte h
    rw [UInt8.toNat_ofNat']
    omega
  · exact le_of_mem_continuation hb

/-- A beginning of an encoding that holds a byte of ASCII is that byte, and the whole encoding. -/
theorem eq_singleton_of_mem_prefix {part : Bytes} {c : Char} {b : UInt8}
    (h : part <+: String.utf8EncodeChar c) (hb : b ∈ part) (hascii : b.toNat < 0x80) :
    part = [b] ∧ c = Char.ofNat b.toNat := by
  have hc : c.toNat < 0x80 := by
    by_cases hlt : c.toNat < 0x80
    · exact hlt
    · have := le_of_mem_encodeChar (Nat.le_of_not_lt hlt) (h.mem hb)
      omega
  rw [encodeChar_of_lt hc] at h
  obtain rfl | ⟨rest, rfl, hrest⟩ := List.prefix_cons_iff.mp h
  · cases hb
  · obtain rfl := List.prefix_nil.mp hrest
    obtain rfl := List.mem_singleton.mp hb
    rw [UInt8.toNat_ofNat', Nat.mod_eq_of_lt (Nat.lt_trans hc (by decide)), Char.ofNat_toNat]
    exact ⟨rfl, rfl⟩

/-! ### Beginnings of encodings -/

/-- The bytes begin the encoding of some character, or are the whole of it. -/
def Begins (part : Bytes) : Prop := ∃ c : Char, part <+: String.utf8EncodeChar c

/-- A byte of ASCII is the whole of one. -/
theorem begins_of_lt {b : UInt8} (h : b.toNat < 0x80) : Begins [b] :=
  ⟨Char.ofNat b.toNat, (encodeChar_ofNat h).symm ▸ List.prefix_rfl⟩

theorem singleton_prefix_encodeChar_iff {b : UInt8} {c : Char} :
    [b] <+: String.utf8EncodeChar c ↔ firstByte c.toNat = b.toNat := by
  have hlt : firstByte c.toNat < 2 ^ 8 := Nat.lt_trans (firstByte_lt c.valid) (by decide)
  rw [encodeChar_eq, List.cons_prefix_cons, ← UInt8.toNat_inj, UInt8.toNat_ofNat',
    Nat.mod_eq_of_lt hlt, and_iff_left List.nil_prefix, eq_comm]

/-- A byte that begins an encoding does not go on with another one. -/
theorem not_begins_concat {part : Bytes} (hne : part ≠ []) {b : UInt8} (hb : Begins [b]) :
    ¬ Begins (part ++ [b]) := by
  rintro ⟨c, hc⟩
  obtain ⟨d, hd⟩ := hb
  obtain ⟨first, more, rfl⟩ := List.exists_cons_of_ne_nil hne
  rw [encodeChar_eq, List.cons_append, List.cons_prefix_cons] at hc
  have hmem : b ∈ continuation c.toNat (tailLength c.toNat) :=
    hc.2.mem (List.mem_append_right more List.mem_cons_self)
  rw [singleton_prefix_encodeChar_iff] at hd
  have hle := le_of_mem_continuation hmem
  have hlt := lt_of_mem_continuation hmem
  have := firstByte_gap d.toNat
  omega

theorem singleton_prefix_continuation_iff {b : UInt8} {number count : Nat} :
    [b] <+: continuation number (count + 1) ↔ b.toNat = leading number count % 64 + 0x80 := by
  have hlt : leading number count % 64 + 0x80 < 2 ^ 8 := by omega
  rw [continuation, List.cons_prefix_cons, ← UInt8.toNat_inj, UInt8.toNat_ofNat',
    Nat.mod_eq_of_lt hlt, and_iff_left List.nil_prefix]

namespace Unfinished

/-- The character begun may have this number. -/
def Admits (u : Unfinished) (number : Nat) : Prop :=
  u.value * 64 + u.least.toNat % 64 ≤ leading number u.further ∧
    leading number u.further ≤ u.value * 64 + u.greatest.toNat % 64

/-- The byte lies in the range given for the next one. -/
def Accepts (u : Unfinished) (b : UInt8) : Prop := u.least ≤ b ∧ b ≤ u.greatest

/-- What is known of a character after the bytes `part`, if that begins its encoding. -/
structure Follows (u : Unfinished) (part : Bytes) : Prop where
  low : 0x80 ≤ u.least.toNat
  least_le : u.least.toNat ≤ u.greatest.toNat
  high : u.greatest.toNat ≤ 0xBF
  /-- The numbers in the range are those of characters. -/
  valid : ∀ number, u.Admits number → number.isValidChar
  /-- Among them are all characters whose encodings begin with `part`. -/
  admits : ∀ c : Char, part <+: String.utf8EncodeChar c → u.Admits c.toNat
  /-- They are no others, and what is still to come of an encoding is known. -/
  encoding : ∀ c : Char, u.Admits c.toNat →
    String.utf8EncodeChar c = part ++ continuation c.toNat (u.further + 1)

/-- A first byte determines a range and how many bytes follow. -/
theorem follows_of_lead {value further : Nat} {least greatest b : UInt8}
    (low : 0x80 ≤ least.toNat) (least_le : least.toNat ≤ greatest.toNat)
    (high : greatest.toNat ≤ 0xBF)
    (hadmits : ∀ number, value * 64 + least.toNat % 64 ≤ leading number further ∧
        leading number further ≤ value * 64 + greatest.toNat % 64 ↔
      number.isValidChar ∧ firstByte number = b.toNat)
    (htail : ∀ number, firstByte number = b.toNat → tailLength number = further + 1) :
    (mk value further least greatest).Follows [b] where
  low := low
  least_le := least_le
  high := high
  valid number h := ((hadmits number).mp h).1
  admits c h := (hadmits c.toNat).mpr ⟨c.valid, singleton_prefix_encodeChar_iff.mp h⟩
  encoding c h := by
    have hfirst := ((hadmits c.toNat).mp h).2
    rw [encodeChar_eq, htail _ hfirst, hfirst, UInt8.ofNat_toNat]
    rfl

/-- The first bytes of two. -/
theorem follows_two {b : UInt8} (hlow : 0xC2 ≤ b.toNat) (hhigh : b.toNat < 0xE0) :
    (mk (b.toNat % 32) 0 0x80 0xBF).Follows [b] := by
  refine follows_of_lead (by decide) (by decide) (by decide) (fun number => ?_) fun number => ?_
  · have := length_cases number
    simp only [leading, UInt8.reduceToNat, Nat.isValidChar]
    omega
  · have := length_cases number
    omega

/-- The first bytes of three.  Behind `E0` the smaller numbers have shorter encodings, and behind
`ED` the greater ones are no characters. -/
theorem follows_three {b : UInt8} (hlow : 0xE0 ≤ b.toNat) (hhigh : b.toNat < 0xF0) :
    (mk (b.toNat % 16) 1 (if b = 0xE0 then 0xA0 else 0x80)
      (if b = 0xED then 0x9F else 0xBF)).Follows [b] := by
  have htail : ∀ number, firstByte number = b.toNat → tailLength number = 2 := by
    intro number
    have := length_cases number
    omega
  have hfirst : ∀ number, firstByte number = b.toNat ↔
      0x800 ≤ number ∧ number / 64 / 64 + 0xE0 = b.toNat := by
    intro number
    have := length_cases number
    omega
  simp only [← UInt8.toNat_inj, UInt8.reduceToNat]
  by_cases hE0 : b.toNat = 0xE0
  · rw [if_pos hE0, if_neg (by omega)]
    refine follows_of_lead (by decide) (by decide) (by decide) (fun number => ?_) htail
    rw [hfirst]
    simp only [hE0, leading, UInt8.reduceToNat, Nat.isValidChar]
    omega
  by_cases hED : b.toNat = 0xED
  · rw [if_neg hE0, if_pos hED]
    refine follows_of_lead (by decide) (by decide) (by decide) (fun number => ?_) htail
    rw [hfirst]
    simp only [hED, leading, UInt8.reduceToNat, Nat.isValidChar]
    omega
  · rw [if_neg hE0, if_neg hED]
    refine follows_of_lead (by decide) (by decide) (by decide) (fun number => ?_) htail
    rw [hfirst]
    simp only [leading, UInt8.reduceToNat, Nat.isValidChar]
    omega

/-- The first bytes of four.  Behind `F0` the smaller numbers have shorter encodings, and behind `F4`
the greater ones are no characters. -/
theorem follows_four {b : UInt8} (hlow : 0xF0 ≤ b.toNat) (hhigh : b.toNat < 0xF5) :
    (mk (b.toNat % 8) 2 (if b = 0xF0 then 0x90 else 0x80)
      (if b = 0xF4 then 0x8F else 0xBF)).Follows [b] := by
  have htail : ∀ number, firstByte number = b.toNat → tailLength number = 3 := by
    intro number
    have := length_cases number
    omega
  have hfirst : ∀ number, firstByte number = b.toNat ↔
      0x10000 ≤ number ∧ number / 4096 / 64 + 0xF0 = b.toNat := by
    intro number
    have := length_cases number
    omega
  simp only [← UInt8.toNat_inj, UInt8.reduceToNat]
  by_cases hF0 : b.toNat = 0xF0
  · rw [if_pos hF0, if_neg (by omega)]
    refine follows_of_lead (by decide) (by decide) (by decide) (fun number => ?_) htail
    rw [hfirst]
    simp only [hF0, leading, UInt8.reduceToNat, Nat.isValidChar]
    omega
  by_cases hF4 : b.toNat = 0xF4
  · rw [if_neg hF0, if_pos hF4]
    refine follows_of_lead (by decide) (by decide) (by decide) (fun number => ?_) htail
    rw [hfirst]
    simp only [hF4, leading, UInt8.reduceToNat, Nat.isValidChar]
    omega
  · rw [if_neg hF0, if_neg hF4]
    refine follows_of_lead (by decide) (by decide) (by decide) (fun number => ?_) htail
    rw [hfirst]
    simp only [leading, UInt8.reduceToNat, Nat.isValidChar]
    omega

/-- What is known of the character after one more byte, if so many follow that one. -/
def behind (u : Unfinished) (b : UInt8) (further : Nat) : Unfinished :=
  ⟨u.value * 64 + b.toNat % 64, further, 0x80, 0xBF⟩

namespace Follows
variable {u : Unfinished} {part : Bytes} (h : u.Follows part) {b : UInt8}
include h

theorem concat_prefix_iff {c : Char} : part ++ [b] <+: String.utf8EncodeChar c ↔
    u.Admits c.toNat ∧ b.toNat = leading c.toNat u.further % 64 + 0x80 := by
  constructor
  · intro hb
    have hadmits := h.admits c ((List.prefix_append part [b]).trans hb)
    rw [h.encoding c hadmits, List.prefix_append_right_inj] at hb
    exact ⟨hadmits, singleton_prefix_continuation_iff.mp hb⟩
  · rintro ⟨hadmits, hb⟩
    rw [h.encoding c hadmits, List.prefix_append_right_inj]
    exact singleton_prefix_continuation_iff.mpr hb

/-- A byte in its range tells six more bits of the number. -/
theorem admits_byte_iff (hb : u.Accepts b) {number : Nat} :
    u.Admits number ∧ b.toNat = leading number u.further % 64 + 0x80 ↔
      leading number u.further = u.value * 64 + b.toNat % 64 := by
  obtain ⟨hleast, hgreatest⟩ := hb
  rw [UInt8.le_iff_toNat_le] at hleast hgreatest
  have := h.low
  have := h.high
  rw [Admits]
  omega

/-- The encoding of some character goes on with a byte iff that lies in its range. -/
theorem begins_concat_iff : Begins (part ++ [b]) ↔ u.Accepts b := by
  constructor
  · rintro ⟨c, hc⟩
    obtain ⟨hadmits, hb⟩ := h.concat_prefix_iff.mp hc
    have := h.low
    have := h.least_le
    have := h.high
    rw [Admits] at hadmits
    rw [Accepts, UInt8.le_iff_toNat_le, UInt8.le_iff_toNat_le]
    omega
  · intro hb
    obtain ⟨number, hleading⟩ := exists_leading_eq (u.value * 64 + b.toNat % 64) u.further
    have hboth := (h.admits_byte_iff hb).mpr hleading
    have hnumber := toNat_ofNat_of_valid (h.valid _ hboth.1)
    rw [← hnumber] at hboth
    exact ⟨_, h.concat_prefix_iff.mpr hboth⟩

/-- Bytes that are followed begin an encoding, which is not complete. -/
theorem begins : Begins part := by
  have hleast : u.Accepts u.least :=
    ⟨UInt8.le_refl _, UInt8.le_iff_toNat_le.mpr h.least_le⟩
  obtain ⟨c, hc⟩ := h.begins_concat_iff.mpr hleast
  exact ⟨c, (List.prefix_append part [u.least]).trans hc⟩

theorem ne_encodeChar (c : Char) : part ≠ String.utf8EncodeChar c := by
  intro heq
  have hwhole : part <+: String.utf8EncodeChar c := heq ▸ List.prefix_rfl
  have hencoding := h.encoding c (h.admits c hwhole)
  rw [← heq, eq_comm, List.append_right_eq_self] at hencoding
  cases hencoding

/-- A byte in its range that is not the last one. -/
theorem next (hb : u.Accepts b) {further : Nat} (hfurther : u.further = further + 1) :
    (u.behind b further).Follows (part ++ [b]) := by
  have hiff : ∀ number, (u.behind b further).Admits number ↔
      u.Admits number ∧ b.toNat = leading number u.further % 64 + 0x80 := by
    intro number
    rw [h.admits_byte_iff hb, Admits, behind, hfurther, leading]
    simp only [UInt8.reduceToNat]
    omega
  refine ⟨Nat.le_refl 0x80, (by decide : 0x80 ≤ 0xBF), Nat.le_refl 0xBF, ?_, ?_, ?_⟩
  · intro number hnumber
    exact h.valid number ((hiff number).mp hnumber).1
  · intro c hc
    exact (hiff _).mpr (h.concat_prefix_iff.mp hc)
  · intro c hc
    obtain ⟨hadmits, hbyte⟩ := (hiff _).mp hc
    rw [h.encoding c hadmits, continuation, ← hbyte, UInt8.ofNat_toNat, hfurther,
      List.append_assoc]
    rfl

/-- A byte in its range that is the last one. -/
theorem last (hb : u.Accepts b) (hfurther : u.further = 0) {c : Char}
    (hc : part ++ [b] <+: String.utf8EncodeChar c) :
    String.utf8EncodeChar c = part ++ [b] ∧ Char.ofNat (u.value * 64 + b.toNat % 64) = c := by
  obtain ⟨hadmits, hbyte⟩ := h.concat_prefix_iff.mp hc
  have hnumber := (h.admits_byte_iff hb).mp ⟨hadmits, hbyte⟩
  rw [hfurther, leading] at hnumber
  rw [h.encoding c hadmits, continuation, ← hbyte, UInt8.ofNat_toNat, hfurther, ← hnumber,
    Char.ofNat_toNat]
  exact ⟨rfl, rfl⟩

end Follows
end Unfinished
end LineSearch.Utf8
