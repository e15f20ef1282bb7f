import LineSearch.Proofs.Text.Encoding

/-! # Reading bytes as characters

The rule by which bytes are read as characters, whether they are well-formed UTF-8 or
not, is `Utf8.Decodes`.  The bytes fall into parts, and each part is one character:

* the encoding of a character is that character;
* bytes that begin an encoding, but neither complete it nor go on with it, are the
  replacement character as a whole;
* a byte with which no encoding begins is the replacement character by itself.

`Utf8.decode` reads by this rule, and the rule determines what is read
(`Utf8.decode_eq_iff`).

A byte that begins an encoding continues no part, so what is before it is read apart from
what is behind (`Decodes.append`).  Bytes of ASCII moreover stand for themselves wherever
they are: a part that is replaced holds none of them (`decode_append_ascii`).
-/
namespace LineSearch.Utf8

/-- The bytes `part`, with `behind` after them, are read as one character. -/
inductive ReadsAs : (part behind : Bytes) → Char → Prop
  /-- The encoding of a character. -/
  | encoding {behind} (c : Char) : ReadsAs (String.utf8EncodeChar c) behind c
  /-- A part that could have been continued, as far as it goes. -/
  | truncated {part behind} : part ≠ [] → Begins part → (∀ c, part ≠ String.utf8EncodeChar c) →
      (∀ b ∈ behind.head?, ¬ Begins (part ++ [b])) → ReadsAs part behind replacement
  /-- A byte with which no encoding begins. -/
  | stray {b behind} : ¬ Begins [b] → ReadsAs [b] behind replacement

/-- The bytes are read as the characters. -/
inductive Decodes : Bytes → List Char → Prop
  | nil : Decodes [] []
  | cons {part behind c text} : ReadsAs part behind c → Decodes behind text →
      Decodes (part ++ behind) (c :: text)

/-! ### The decoder keeps to the rule -/

open Decoder

/-- The first byte of a part: a character by itself, the beginning of some, or stray. -/
theorem lead_cases (decoded : List Char) (b : UInt8) :
    (b.toNat < 0x80 ∧ lead decoded b = ⟨Char.ofNat b.toNat :: decoded, none⟩) ∨
    (∃ u : Unfinished, u.Follows [b] ∧ lead decoded b = ⟨decoded, some u⟩) ∨
    (¬ Begins [b] ∧ lead decoded b = ⟨replacement :: decoded, none⟩) := by
  have hbegins : Begins [b] → (b.toNat < 0x80 ∨ 0xC2 ≤ b.toNat) ∧ b.toNat < 0xF5 := by
    rintro ⟨c, h⟩
    rw [singleton_prefix_encodeChar_iff] at h
    have hlt : firstByte c.toNat < 0xF5 := firstByte_lt c.valid
    have := firstByte_gap c.toNat
    omega
  rw [lead]
  simp only [UInt8.lt_iff_toNat_lt, UInt8.reduceToNat]
  by_cases h80 : b.toNat < 0x80
  · exact .inl ⟨h80, if_pos h80⟩
  rw [if_neg h80]
  by_cases hC2 : b.toNat < 0xC2
  · exact .inr (.inr ⟨fun h => by have := hbegins h; omega, if_pos hC2⟩)
  rw [if_neg hC2]
  by_cases hE0 : b.toNat < 0xE0
  · exact .inr (.inl ⟨_, Unfinished.follows_two (Nat.le_of_not_lt hC2) hE0, if_pos hE0⟩)
  rw [if_neg hE0]
  by_cases hF0 : b.toNat < 0xF0
  · exact .inr (.inl ⟨_, Unfinished.follows_three (Nat.le_of_not_lt hE0) hF0, if_pos hF0⟩)
  rw [if_neg hF0]
  by_cases hF5 : b.toNat < 0xF5
  · exact .inr (.inl ⟨_, Unfinished.follows_four (Nat.le_of_not_lt hF0) hF5, if_pos hF5⟩)
  · exact .inr (.inr ⟨fun h => hF5 (hbegins h).2, if_neg hF5⟩)

/-- A byte in the range continues the character begun. -/
theorem step_of_accepts {u : Unfinished} {b : UInt8} (h : u.Accepts b) (decoded : List Char) :
    step ⟨decoded, some u⟩ b =
      match u.further with
      | 0 => ⟨Char.ofNat (u.value * 64 + b.toNat % 64) :: decoded, none⟩
      | further + 1 => ⟨decoded, some (u.behind b further)⟩ := by
  rw [step]
  exact if_pos h

/-- Any other byte ends it. -/
theorem step_of_not_accepts {u : Unfinished} {b : UInt8} (h : ¬ u.Accepts b)
    (decoded : List Char) :
    step ⟨decoded, some u⟩ b = step ⟨replacement :: decoded, none⟩ b := by
  rw [step]
  exact if_neg h

/-- Reading on within an encoding completes it or remains within it. -/
theorem foldl_step_of_follows {c : Char} (decoded : List Char) : ∀ {more part : Bytes}
    {u : Unfinished}, u.Follows part → part ++ more <+: String.utf8EncodeChar c →
    (part ++ more = String.utf8EncodeChar c ∧
      more.foldl step ⟨decoded, some u⟩ = ⟨c :: decoded, none⟩) ∨
    ∃ u' : Unfinished, u'.Follows (part ++ more) ∧
      more.foldl step ⟨decoded, some u⟩ = ⟨decoded, some u'⟩
  | [], part, u, hu, _ => .inr ⟨u, by rwa [List.append_nil], rfl⟩
  | b :: more, part, u, hu, hwithin => by
      have hassoc : part ++ b :: more = (part ++ [b]) ++ more := by simp
      rw [hassoc] at hwithin ⊢
      have hconcat := (List.prefix_append (part ++ [b]) more).trans hwithin
      have hb : u.Accepts b := hu.begins_concat_iff.mp ⟨c, hconcat⟩
      rw [List.foldl_cons, step_of_accepts hb]
      cases hfurther : u.further with
      | zero =>
        obtain ⟨hwhole, hchar⟩ := hu.last hb hfurther hconcat
        rw [hwhole, List.prefix_iff_eq_append] at hwithin
        have hmore : more = [] := by simpa using hwithin
        subst hmore
        exact .inl ⟨by rw [hwhole, List.append_nil], by rw [hchar]; rfl⟩
      | succ further => exact foldl_step_of_follows decoded (hu.next hb hfurther) hwithin

/-- Reading from a first byte on. -/
theorem foldl_step_of_prefix (decoded : List Char) {c : Char} {part : Bytes} (hne : part ≠ [])
    (hwithin : part <+: String.utf8EncodeChar c) :
    (part = String.utf8EncodeChar c ∧ part.foldl step ⟨decoded, none⟩ = ⟨c :: decoded, none⟩) ∨
    ∃ u : Unfinished, u.Follows part ∧ part.foldl step ⟨decoded, none⟩ = ⟨decoded, some u⟩ := by
  obtain ⟨b, more, rfl⟩ := List.exists_cons_of_ne_nil hne
  have hfirst : step ⟨decoded, none⟩ b = lead decoded b := rfl
  have hbegins : [b] <+: String.utf8EncodeChar c := (List.prefix_append [b] more).trans hwithin
  rw [List.foldl_cons, hfirst]
  rcases lead_cases decoded b with ⟨hascii, hlead⟩ | ⟨u, hu, hlead⟩ | ⟨hstray, -⟩
  · obtain ⟨hpart, rfl⟩ := eq_singleton_of_mem_prefix hwithin List.mem_cons_self hascii
    obtain ⟨-, rfl⟩ := List.cons.inj hpart
    rw [hlead]
    exact .inl ⟨(encodeChar_ofNat hascii).symm, rfl⟩
  · rw [hlead]
    exact foldl_step_of_follows decoded hu hwithin
  · exact absurd ⟨c, hbegins⟩ hstray

/-- The decoder reads a part as its character. -/
theorem ReadsAs.finish_foldl_step {part behind : Bytes} {c : Char} (h : ReadsAs part behind c)
    (decoded : List Char) : ((part ++ behind).foldl step ⟨decoded, none⟩).finish =
      (behind.foldl step ⟨c :: decoded, none⟩).finish := by
  rw [List.foldl_append]
  cases h with
  | encoding c =>
    have hne : String.utf8EncodeChar c ≠ [] := String.utf8EncodeChar_ne_nil
    obtain ⟨-, hread⟩ | ⟨u, hu, -⟩ := foldl_step_of_prefix decoded hne List.prefix_rfl
    · rw [hread]
    · exact absurd rfl (hu.ne_encodeChar c)
  | truncated hne hbegins hpart hbehind =>
    obtain ⟨c, hwithin⟩ := hbegins
    obtain ⟨hwhole, -⟩ | ⟨u, hu, hread⟩ := foldl_step_of_prefix decoded hne hwithin
    · exact absurd hwhole (hpart c)
    · rw [hread]
      cases behind with
      | nil => rfl
      | cons b rest =>
        have hb : ¬ u.Accepts b := fun hb => hbehind b rfl (hu.begins_concat_iff.mpr hb)
        rw [List.foldl_cons, List.foldl_cons, step_of_not_accepts hb]
  | @stray b behind hstray =>
    have hfirst : step ⟨decoded, none⟩ b = lead decoded b := rfl
    rw [List.foldl_cons, List.foldl_nil, hfirst]
    rcases lead_cases decoded b with ⟨hascii, -⟩ | ⟨u, hu, -⟩ | ⟨-, hlead⟩
    · exact absurd (begins_of_lt hascii) hstray
    · exact absurd hu.begins hstray
    · rw [hlead]

theorem Decodes.decode_eq {bytes : Bytes} {text : List Char} (h : Decodes bytes text) :
    decode bytes = text := by
  suffices hread : ∀ decoded, (bytes.foldl step ⟨decoded, none⟩).finish = decoded.reverse ++ text from
    hread []
  induction h with
  | nil =>
    intro decoded
    rw [List.append_nil]
    rfl
  | cons hpart _ ih =>
    intro decoded
    rw [hpart.finish_foldl_step, ih, List.reverse_cons, List.append_assoc, List.singleton_append]

/-! ### All bytes are read -/

/-- Behind a beginning of a list that has a property stands a longest such beginning. -/
theorem exists_longest {P : Bytes → Prop} : ∀ (more : Bytes) {part : Bytes}, P part →
    ∃ longer behind, part ++ more = longer ++ behind ∧ P longer ∧
      ∀ b ∈ behind.head?, ¬ P (longer ++ [b])
  | [], part, h => ⟨part, [], rfl, h, nofun⟩
  | b :: more, part, h => by
      by_cases hb : P (part ++ [b])
      · obtain ⟨longer, behind, heq, hlonger⟩ := exists_longest more hb
        exact ⟨longer, behind, by rw [← heq, List.append_assoc]; rfl, hlonger⟩
      · refine ⟨part, b :: more, rfl, h, ?_⟩
        rintro _ ⟨⟩
        exact hb

theorem exists_readsAs {bytes : Bytes} (hne : bytes ≠ []) :
    ∃ part behind c, bytes = part ++ behind ∧ part ≠ [] ∧ ReadsAs part behind c := by
  obtain ⟨b, more, rfl⟩ := List.exists_cons_of_ne_nil hne
  by_cases hb : Begins [b]
  · obtain ⟨part, behind, heq, ⟨hpart, hbegins⟩, hbehind⟩ :=
      exists_longest (P := fun part => part ≠ [] ∧ Begins part) more
        ⟨List.cons_ne_nil b [], hb⟩
    by_cases hwhole : ∃ c, part = String.utf8EncodeChar c
    · obtain ⟨c, rfl⟩ := hwhole
      exact ⟨_, behind, c, heq, hpart, .encoding c⟩
    · refine ⟨part, behind, replacement, heq, hpart, .truncated hpart hbegins ?_ ?_⟩
      · exact fun c hc => hwhole ⟨c, hc⟩
      · exact fun b hb hlonger => hbehind b hb ⟨by simp, hlonger⟩
  · exact ⟨[b], more, replacement, rfl, List.cons_ne_nil b [], .stray hb⟩

theorem exists_decodes (bytes : Bytes) : ∃ text, Decodes bytes text := by
  by_cases hne : bytes = []
  · exact ⟨[], hne ▸ .nil⟩
  · obtain ⟨part, behind, c, heq, hpart, hreads⟩ := exists_readsAs hne
    have hshorter : behind.length < bytes.length := by
      have := List.length_pos_iff.mpr hpart
      rw [heq, List.length_append]
      omega
    obtain ⟨text, htext⟩ := exists_decodes behind
    exact ⟨c :: text, heq ▸ .cons hreads htext⟩
termination_by bytes.length

theorem decodes_decode (bytes : Bytes) : Decodes bytes (decode bytes) := by
  obtain ⟨text, h⟩ := exists_decodes bytes
  rwa [h.decode_eq]

/-- **Bytes are read by the rule, and by it alone.** -/
theorem decode_eq_iff {bytes : Bytes} {text : List Char} :
    decode bytes = text ↔ Decodes bytes text := by
  constructor
  · rintro rfl
    exact decodes_decode bytes
  · exact Decodes.decode_eq

theorem decode_encode (text : List Char) : decode (encode text) = text := by
  rw [decode_eq_iff]
  induction text with
  | nil => exact .nil
  | cons c text ih => exact .cons (.encoding c) ih

theorem encode_inj {first second : List Char} : encode first = encode second ↔ first = second := by
  constructor
  · intro h
    rw [← decode_encode first, h, decode_encode]
  · rintro rfl
    rfl

/-! ### Where an encoding begins -/

/-- What a part is read as does not depend on whether it is the end or a byte follows that begins an
encoding. -/
theorem ReadsAs.append {part behind : Bytes} {c : Char} (h : ReadsAs part behind c) {b : UInt8}
    (hb : Begins [b]) (more : Bytes) : ReadsAs part (behind ++ b :: more) c := by
  cases h with
  | encoding c => exact .encoding c
  | stray hstray => exact .stray hstray
  | truncated hne hbegins hpart hbehind =>
    refine .truncated hne hbegins hpart ?_
    cases behind with
    | cons first rest => exact hbehind
    | nil =>
      rintro _ ⟨⟩
      exact not_begins_concat hne hb

/-- What is before a byte that begins an encoding is read apart from what is behind. -/
theorem Decodes.append {first second : Bytes} {text more : List Char} (hfirst : Decodes first text)
    {b : UInt8} (hb : Begins [b]) (hsecond : Decodes (b :: second) more) :
    Decodes (first ++ b :: second) (text ++ more) := by
  induction hfirst with
  | nil => exact hsecond
  | cons hpart _ ih =>
    rw [List.append_assoc]
    exact .cons (hpart.append hb second) ih

/-! ### Bytes of ASCII -/

/-- A part that holds a byte of ASCII is that byte, and is read as its character. -/
theorem ReadsAs.eq_of_mem {part behind : Bytes} {c : Char} (h : ReadsAs part behind c) {b : UInt8}
    (hb : b ∈ part) (hascii : b.toNat < 0x80) : part = [b] ∧ c = Char.ofNat b.toNat := by
  cases h with
  | encoding c => exact eq_singleton_of_mem_prefix List.prefix_rfl hb hascii
  | truncated _ hbegins hpart _ =>
    obtain ⟨c, hwithin⟩ := hbegins
    obtain ⟨rfl, -⟩ := eq_singleton_of_mem_prefix hwithin hb hascii
    exact absurd (encodeChar_ofNat hascii).symm (hpart _)
  | stray hstray =>
    obtain rfl := List.mem_singleton.mp hb
    exact absurd (begins_of_lt hascii) hstray

/-- A part that is read as a character of ASCII is its byte. -/
theorem ReadsAs.eq_of_lt {part behind : Bytes} {c : Char} (h : ReadsAs part behind c)
    (hascii : c.toNat < 0x80) : part = [UInt8.ofNat c.toNat] := by
  cases h with
  | encoding c => exact encodeChar_of_lt hascii
  | truncated _ _ _ _ => exact absurd hascii (by decide)
  | stray _ => exact absurd hascii (by decide)

theorem ReadsAs.ne_nil {part behind : Bytes} {c : Char} (h : ReadsAs part behind c) :
    part ≠ [] := by
  cases h with
  | encoding c => exact String.utf8EncodeChar_ne_nil
  | truncated hne _ _ _ => exact hne
  | stray _ => exact List.cons_ne_nil _ _

section Ascii
variable {d : Char} (hd : d.toNat < 0x80)
include hd

theorem toNat_ascii : (UInt8.ofNat d.toNat).toNat = d.toNat := by
  rw [UInt8.toNat_ofNat']
  omega

theorem ReadsAs.mem_iff {part behind : Bytes} {c : Char} (h : ReadsAs part behind c) :
    UInt8.ofNat d.toNat ∈ part ↔ c = d := by
  have hnumber := toNat_ascii hd
  constructor
  · intro hmem
    obtain ⟨-, rfl⟩ := h.eq_of_mem hmem (by omega)
    rw [hnumber, Char.ofNat_toNat]
  · rintro rfl
    rw [h.eq_of_lt hd]
    exact List.mem_cons_self

theorem Decodes.mem_iff {bytes : Bytes} {text : List Char} (h : Decodes bytes text) :
    d ∈ text ↔ UInt8.ofNat d.toNat ∈ bytes := by
  induction h with
  | nil => exact iff_of_false List.not_mem_nil List.not_mem_nil
  | cons hpart _ ih => rw [List.mem_cons, List.mem_append, ih, hpart.mem_iff hd, eq_comm]

theorem Decodes.getLast?_iff {bytes : Bytes} {text : List Char} (h : Decodes bytes text) :
    text.getLast? = some d ↔ bytes.getLast? = some (UInt8.ofNat d.toNat) := by
  induction h with
  | nil => exact iff_of_false nofun nofun
  | @cons part behind c text hpart htext ih =>
    cases htext with
    | nil =>
      rw [List.append_nil, List.getLast?_singleton, Option.some_inj]
      constructor
      · rintro rfl
        rw [hpart.eq_of_lt hd]
        rfl
      · intro hlast
        exact (hpart.mem_iff hd).mp (List.mem_of_getLast? hlast)
    | cons hnext _ =>
      have hne := List.append_ne_nil_of_left_ne_nil hnext.ne_nil
      rw [List.getLast?_cons_cons, ih, List.getLast?_append (l := part),
        Option.or_of_isSome (List.getLast?_isSome.mpr (hne _))]

theorem Decodes.append_ascii {first second : Bytes} {text more : List Char}
    (hfirst : Decodes first text) (hsecond : Decodes second more) :
    Decodes (first ++ UInt8.ofNat d.toNat :: second) (text ++ d :: more) := by
  have hnumber := toNat_ascii hd
  have hpart : ReadsAs [UInt8.ofNat d.toNat] second d := encodeChar_of_lt hd ▸ .encoding d
  have hbehind : Decodes (UInt8.ofNat d.toNat :: second) (d :: more) := .cons hpart hsecond
  exact hfirst.append (begins_of_lt (by omega)) hbehind

/-- A text holds a character of ASCII iff the bytes hold its byte. -/
theorem mem_decode_iff {bytes : Bytes} : d ∈ decode bytes ↔ UInt8.ofNat d.toNat ∈ bytes :=
  (decodes_decode bytes).mem_iff hd

/-- A text ends with a character of ASCII iff the bytes end with its byte. -/
theorem getLast?_decode_iff {bytes : Bytes} :
    (decode bytes).getLast? = some d ↔ bytes.getLast? = some (UInt8.ofNat d.toNat) :=
  (decodes_decode bytes).getLast?_iff hd

/-- A byte of ASCII separates what is before it from what is behind. -/
theorem decode_append_ascii (first second : Bytes) :
    decode (first ++ UInt8.ofNat d.toNat :: second) = decode first ++ d :: decode second :=
  ((decodes_decode first).append_ascii hd (decodes_decode second)).decode_eq

end Ascii

theorem decode_eq_nil_iff {bytes : Bytes} : decode bytes = [] ↔ bytes = [] := by
  constructor
  · intro h
    have hdecodes := decode_eq_iff.mp h
    cases hdecodes with
    | nil => rfl
  · rintro rfl
    rfl

end LineSearch.Utf8
