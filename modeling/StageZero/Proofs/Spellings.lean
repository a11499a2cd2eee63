/-
# Addresses that were printed are read back

An address is printed by its digits in base ten or sixteen, inside `Address(…)`.  This file proves
that every way to write these digits is read as that address, or, if the address is not aligned, is
refused for that and for nothing else.  The ways to write them are

* a `0x` or a `0X` before the digits in base sixteen, and nothing before those in base ten;
* any number of zeros before the first digit;
* each letter in either case, and underscores anywhere among the digits, at both ends too
  (`Respelled`);
* blanks around the whole.

What `Address.parse` makes of a text is known from the number that the text spells
(`number?_eq_some_iff`), so nothing is said here about the scanner.  There are two things to show.
The digits that are printed make up the address, with zeros before them or not (`printed_digits`).
And no spelling is taken for one in the other radix: a decimal one has no `x` in it, and a marked one
has a third byte.
-/
import StageZero.Address.Printer
import StageZero.Proofs.AddressGrammar

namespace StageZero.Address

/-! ## 1. Spellings of printed digits -/

/-- **A text respelled**: letters of it in upper case, and underscores anywhere. -/
inductive Respelled : List Char → List Char → Prop
  | nil : Respelled [] []
  | gap {text new} (h : Respelled text new) : Respelled text ('_' :: new)
  | keep {text new} (c : Char) (h : Respelled text new) : Respelled (c :: text) (c :: new)
  | upper {text new} (c : Char) (h : Respelled text new) : Respelled (c :: text) (c.toUpper :: new)

theorem Respelled.refl : ∀ text : List Char, Respelled text text
  | [] => .nil
  | c :: text => .keep c (refl text)

/-- What may stand before the digits of a radix. -/
def Radix.marks : Radix → List String
  | .decimal => [""]
  | .hexadecimal => ["0x", "0X"]

/-- A character that may stand around an address. -/
def BlankChar (c : Char) : Prop := c ∈ [' ', '\t', '\n', '\x0c', '\r']

/-! ## 2. The digits of a printed number -/

/-- **Printed digits make up the number that was printed.** -/
theorem printed_digits {base : Nat} (hbase : 1 < base) (n : Nat) :
    ∃ digits, Nat.toDigits base n = digits.map Nat.digitChar ∧ digits ≠ [] ∧
      (∀ d ∈ digits, d < base) ∧ Nat.ofDigits base digits.reverse = n := by
  induction n using Nat.strongRecOn with
  | _ n ih =>
    by_cases hn : n < base
    · exact ⟨[n], Nat.toDigits_of_lt_base hn, by simp, by simpa using hn, by simp⟩
    · have hle : base ≤ n := Nat.le_of_not_lt hn
      obtain ⟨digits, hprinted, -, hdigits, hvalue⟩ :=
        ih (n / base) (Nat.div_lt_self (by omega) hbase)
      refine ⟨digits ++ [n % base], ?_, by simp, ?_, ?_⟩
      · rw [Nat.toDigits_of_base_le hbase hle, hprinted, List.map_append, List.map_singleton]
      · rw [List.forall_mem_append]
        exact ⟨hdigits, by simpa using Nat.mod_lt n (by omega)⟩
      · rw [List.reverse_concat, Nat.ofDigits_cons, hvalue]
        exact Nat.mod_add_div n base

/-- Zeros before a number are part of its spelling and not of its value. -/
theorem ofDigits_leading_zeros (base zeros : Nat) (digits : List Nat) :
    Nat.ofDigits base (List.replicate zeros 0 ++ digits).reverse =
      Nat.ofDigits base digits.reverse := by
  rw [List.reverse_append, List.reverse_replicate, Nat.ofDigits_append_replicate_zero]

/-- A respelling of digits spells these digits. -/
theorem Respelled.spelled {base : Nat} {text new : List Char} (h : Respelled text new)
    {digits : List Nat} (htext : text = digits.map Nat.digitChar)
    (hdigits : ∀ d ∈ digits, d < base) : Spelled base (new.map Char.toUInt8) digits := by
  induction h generalizing digits with
  | nil =>
    cases digits with
    | nil => exact .nil
    | cons d rest => cases htext
  | gap _ ih => exact .gap (ih htext hdigits)
  | keep c _ ih =>
    cases digits with
    | nil => cases htext
    | cons d rest =>
      obtain ⟨rfl, hrest⟩ := List.cons.inj htext
      obtain ⟨hd, hlater⟩ := List.forall_mem_cons.mp hdigits
      exact .digit hd (Or.inl rfl) (ih hrest hlater)
  | upper c _ ih =>
    cases digits with
    | nil => cases htext
    | cons d rest =>
      obtain ⟨rfl, hrest⟩ := List.cons.inj htext
      obtain ⟨hd, hlater⟩ := List.forall_mem_cons.mp hdigits
      exact .digit hd (Or.inr rfl) (ih hrest hlater)

/-! ## 3. The bytes of a spelling -/

/-- The bytes of a text in which every character takes one byte. -/
theorem bytes_of_ascii {text : String} (h : ∀ c ∈ text.toList, c.toNat < 128) :
    text.toByteArray.data.toList = text.toList.map Char.toUInt8 := by
  have hsingle : ∀ c ∈ text.toList, String.utf8EncodeChar c = [c.toUInt8] := by
    intro c hc
    have hsize : c.utf8Size = 1 := by
      rw [Char.utf8Size_eq_one_iff, UInt32.le_iff_toNat_le]
      exact Nat.le_of_lt_succ (h c hc)
    exact String.utf8EncodeChar_eq_singleton hsize
  have hencode : text.toByteArray = text.toList.utf8Encode := by
    rw [← String.toByteArray_ofList, String.ofList_toList]
  rw [hencode, List.utf8Encode, List.data_toByteArray, List.map_eq_flatMap, List.flatMap_def,
    List.flatMap_def, List.map_congr_left hsingle]

/-- A byte of a spelling is an underscore or one of its digits. -/
theorem Spelled.mem {base : Nat} {body : List UInt8} {digits : List Nat}
    (h : Spelled base body digits) : ∀ b ∈ body, b = '_'.toUInt8 ∨ ∃ d < base, SpellsDigit d b := by
  induction h with
  | nil => simp
  | gap _ ih => exact List.forall_mem_cons.mpr ⟨Or.inl rfl, ih⟩
  | digit hd hb _ ih => exact List.forall_mem_cons.mpr ⟨Or.inr ⟨_, hd, hb⟩, ih⟩

theorem toNat_le_of_blank {b : UInt8} (h : Blank b) : b.toNat ≤ 32 := by
  simp only [Blank, List.map_cons, List.map_nil, List.mem_cons, List.not_mem_nil, or_false] at h
  rcases h with rfl | rfl | rfl | rfl | rfl <;> decide

/-- The bytes of a spelling are figures, letters and underscores, and none of these is a blank. -/
theorem Spelled.not_blank {base : Nat} (hbase : base ≤ 16) {body : List UInt8} {digits : List Nat}
    (h : Spelled base body digits) : ∀ b ∈ body, ¬ Blank b := by
  intro b hb hblank
  have hle := toNat_le_of_blank hblank
  rcases h.mem b hb with rfl | ⟨d, hd, hdigit⟩
  · exact absurd hle (by decide)
  · rw [spellsDigit_iff (by omega)] at hdigit
    split_ifs at hdigit <;> omega

/-- A decimal spelling is not marked as hexadecimal, for it has no such letter. -/
theorem Spelled.not_hexMarked {body : List UInt8} {digits : List Nat}
    (h : Spelled 10 body digits) : ¬ HexMarked body := by
  rintro ⟨-, -, hmark⟩
  have hletter : ∃ b ∈ body, b.toNat = 120 ∨ b.toNat = 88 := by
    rcases hmark with hmark | hmark
    · exact ⟨_, List.mem_of_getElem? hmark, Or.inl rfl⟩
    · exact ⟨_, List.mem_of_getElem? hmark, Or.inr rfl⟩
  obtain ⟨b, hb, hval⟩ := hletter
  rcases h.mem b hb with rfl | ⟨d, hd, hdigit⟩
  · exact absurd hval (by decide)
  · rw [spellsDigit_iff (by omega), if_pos hd, if_pos hd] at hdigit
    omega

/-- **A spelling is read in the radix that it is marked with**, from its digits on. -/
theorem baseOf_bodyOf_marked {radix : Radix} {mark : String} (hmark : mark ∈ radix.marks)
    {body : List UInt8} {digits : List Nat} (h : Spelled radix.base body digits)
    (hsome : digits ≠ []) :
    baseOf (mark.toList.map Char.toUInt8 ++ body) = radix.base ∧
      bodyOf (mark.toList.map Char.toUInt8 ++ body) = body := by
  cases radix with
  | decimal =>
    obtain rfl : mark = "" := by simpa [Radix.marks] using hmark
    exact ⟨if_neg h.not_hexMarked, if_neg h.not_hexMarked⟩
  | hexadecimal =>
    -- The digits are what makes the text longer than its mark.
    have hbody : 0 < body.length := by
      cases h with
      | nil => exact absurd rfl hsome
      | gap _ => exact Nat.succ_pos _
      | digit _ _ _ => exact Nat.succ_pos _
    have hmarks : mark = "0x" ∨ mark = "0X" := by simpa [Radix.marks] using hmark
    rcases hmarks with rfl | rfl
    · have hhex : HexMarked ("0x".toList.map Char.toUInt8 ++ body) :=
        ⟨by simpa using hbody, rfl, Or.inl rfl⟩
      exact ⟨if_pos hhex, if_pos hhex⟩
    · have hhex : HexMarked ("0X".toList.map Char.toUInt8 ++ body) :=
        ⟨by simpa using hbody, rfl, Or.inr rfl⟩
      exact ⟨if_pos hhex, if_pos hhex⟩

/-! ## 4. Whole texts -/

/-- Blanks around a text without any at its ends are trimmed. -/
theorem trim_blanks_around {lead t trail : List UInt8} (hlead : ∀ b ∈ lead, Blank b)
    (ht : ∀ b ∈ t, ¬ Blank b) (htrail : ∀ b ∈ trail, Blank b) : trim (lead ++ t ++ trail) = t := by
  refine (stripped_iff.mp ⟨⟨lead, trail, rfl, hlead, htrail⟩, ?_, ?_⟩).symm
  · exact fun b hb => ht b (List.mem_of_head? hb)
  · exact fun b hb => ht b (List.mem_of_getLast? hb)

/-- A text that spells the number of an address is read as that address, if it is aligned. -/
theorem parse_of_numeral {text : String} {a : Address}
    (h : Numeral (trim text.toByteArray.data.toList) a.val.toNat) :
    parse text = if a.Aligned then .ok a else .error .misaligned := by
  rw [parse, ofBytes, number?_eq_some_iff.mpr h]

theorem ascii_of_blank {text : String} (h : ∀ c ∈ text.toList, BlankChar c) :
    ∀ c ∈ text.toList, c.toNat < 128 := by
  intro c hc
  have hblank := h c hc
  simp only [BlankChar, List.mem_cons, List.not_mem_nil, or_false] at hblank
  rcases hblank with rfl | rfl | rfl | rfl | rfl <;> decide

theorem ascii_digitChar : ∀ d < 16,
    (Nat.digitChar d).toNat < 128 ∧ (Nat.digitChar d).toUpper.toNat < 128 := by
  decide

theorem Respelled.ascii {text new : List Char} (h : Respelled text new)
    (htext : ∀ c ∈ text, c.toNat < 128 ∧ c.toUpper.toNat < 128) : ∀ c ∈ new, c.toNat < 128 := by
  induction h with
  | nil => exact fun c hc => absurd hc List.not_mem_nil
  | gap _ ih => exact List.forall_mem_cons.mpr ⟨by decide, ih htext⟩
  | keep c _ ih =>
    obtain ⟨hc, hrest⟩ := List.forall_mem_cons.mp htext
    exact List.forall_mem_cons.mpr ⟨hc.1, ih hrest⟩
  | upper c _ ih =>
    obtain ⟨hc, hrest⟩ := List.forall_mem_cons.mp htext
    exact List.forall_mem_cons.mpr ⟨hc.2, ih hrest⟩

/-- A mark is made of characters of one byte each, and none of them is a blank. -/
theorem mark_chars {radix : Radix} {mark : String} (h : mark ∈ radix.marks) :
    ∀ c ∈ mark.toList, c.toNat < 128 ∧ ¬ Blank c.toUInt8 := by
  have hchars : ∀ c ∈ mark.toList, c = '0' ∨ c = 'x' ∨ c = 'X' := by
    cases radix with
    | decimal =>
      obtain rfl : mark = "" := by simpa [Radix.marks] using h
      simp
    | hexadecimal =>
      have hmarks : mark = "0x" ∨ mark = "0X" := by simpa [Radix.marks] using h
      rcases hmarks with rfl | rfl <;> simp
  intro c hc
  rcases hchars c hc with rfl | rfl | rfl <;>
    exact ⟨by decide, fun hblank => absurd (toNat_le_of_blank hblank) (by decide)⟩

/-- **A respelling of printed digits, as bytes**: digits and underscores that make up the number. -/
theorem Respelled.printed {a : Address} {radix : Radix} {zeros : Nat} {body : List Char}
    (h : Respelled (List.replicate zeros '0' ++ (a.digits radix.base).toList) body) :
    (∀ c ∈ body, c.toNat < 128) ∧
      ∃ digits, Spelled radix.base (body.map Char.toUInt8) digits ∧ digits ≠ [] ∧
        Nat.ofDigits radix.base digits.reverse = a.val.toNat := by
  have hbase : 1 < radix.base ∧ radix.base ≤ 16 := by cases radix <;> decide
  obtain ⟨digits, hprinted, hsome, hdigits, hvalue⟩ := printed_digits hbase.1 a.val.toNat
  -- The zeros in front are digits like the others.
  have hchars : List.replicate zeros '0' ++ (a.digits radix.base).toList =
      (List.replicate zeros 0 ++ digits).map Nat.digitChar := by
    rw [Address.digits, String.toList_ofList, hprinted, List.map_append, List.map_replicate]
    rfl
  have hall : ∀ d ∈ List.replicate zeros 0 ++ digits, d < radix.base := by
    rw [List.forall_mem_append]
    refine ⟨fun d hd => ?_, hdigits⟩
    rw [List.eq_of_mem_replicate hd]
    omega
  refine ⟨h.ascii fun c hc => ?_, _, h.spelled hchars hall, ?_, ?_⟩
  · rw [hchars] at hc
    obtain ⟨d, hd, rfl⟩ := List.mem_map.mp hc
    exact ascii_digitChar d (Nat.lt_of_lt_of_le (hall d hd) hbase.2)
  · exact List.append_ne_nil_of_right_ne_nil _ hsome
  · rw [ofDigits_leading_zeros, hvalue]

/-- **Every spelling of the digits of an address is read as that address**, if it is aligned. -/
theorem parse_respelled {a : Address} {radix : Radix} {mark : String} (hmark : mark ∈ radix.marks)
    {zeros : Nat} {body : String}
    (hbody : Respelled (List.replicate zeros '0' ++ (a.digits radix.base).toList) body.toList)
    {lead trail : String} (hlead : ∀ c ∈ lead.toList, BlankChar c)
    (htrail : ∀ c ∈ trail.toList, BlankChar c) :
    parse (lead ++ mark ++ body ++ trail) = if a.Aligned then .ok a else .error .misaligned := by
  have hbase : radix.base ≤ 16 := by cases radix <;> decide
  obtain ⟨hascii, digits, hspelled, hsome, hvalue⟩ := hbody.printed
  have hmarkBytes : ∀ b ∈ mark.toList.map Char.toUInt8, ¬ Blank b :=
    List.forall_mem_map.mpr fun c hc => (mark_chars hmark c hc).2
  have hbytes : (lead ++ mark ++ body ++ trail).toByteArray.data.toList =
      lead.toList.map Char.toUInt8 ++
        (mark.toList.map Char.toUInt8 ++ body.toList.map Char.toUInt8) ++
          trail.toList.map Char.toUInt8 := by
    have hall : ∀ c ∈ (lead ++ mark ++ body ++ trail).toList, c.toNat < 128 := by
      simp only [String.toList_append, List.forall_mem_append]
      exact ⟨⟨⟨ascii_of_blank hlead, fun c hc => (mark_chars hmark c hc).1⟩, hascii⟩,
        ascii_of_blank htrail⟩
    rw [bytes_of_ascii hall]
    simp only [String.toList_append, List.map_append, List.append_assoc]
  have hblank : ∀ text : String, (∀ c ∈ text.toList, BlankChar c) →
      ∀ b ∈ text.toList.map Char.toUInt8, Blank b := by
    intro text h
    rw [List.forall_mem_map]
    exact fun c hc => List.mem_map_of_mem (h c hc)
  have htrim := trim_blanks_around (hblank lead hlead)
    (List.forall_mem_append.mpr ⟨hmarkBytes, hspelled.not_blank hbase⟩) (hblank trail htrail)
  obtain ⟨hradix, hdigits⟩ := baseOf_bodyOf_marked hmark hspelled hsome
  apply parse_of_numeral
  rw [hbytes, htrim]
  exact ⟨digits, by rwa [hradix, hdigits], hsome, by rwa [hradix], UInt32.toNat_lt a.val⟩

/-- What stands between the parentheses of a printed address are its digits. -/
theorem digits_of_render {a : Address} {base : Nat} {shown : String}
    (h : a.render base = "Address(" ++ shown ++ ")") : shown = a.digits base := by
  have hchars := congrArg String.toList h
  simp only [render, String.toList_append, List.append_cancel_right_eq,
    List.append_cancel_left_eq] at hchars
  exact (String.toList_inj.mp hchars).symm

/-- **Printed addresses are read back.**  Let `shown` be what stands between the parentheses of an
address that was printed in base ten or sixteen.  With the mark of its radix before it, it is read as
the address.  The same is true with any number of zeros added in front of the digits, with letters in
upper case and underscores anywhere among the digits, and with any blanks around the whole.  If the
address is not aligned, all of these are refused for that. -/
theorem printed_address_reads_back (a : Address) (radix : Radix) (shown mark : String)
    (hshown : a.render radix.base = "Address(" ++ shown ++ ")") (hmark : mark ∈ radix.marks) :
    (parse (mark ++ shown) = if a.Aligned then .ok a else .error .misaligned) ∧
      ∀ (zeros : Nat) (body lead trail : String),
        Respelled (List.replicate zeros '0' ++ shown.toList) body.toList →
        (∀ c ∈ lead.toList, BlankChar c) → (∀ c ∈ trail.toList, BlankChar c) →
        parse (lead ++ mark ++ body ++ trail) =
          if a.Aligned then .ok a else .error .misaligned := by
  obtain rfl := digits_of_render hshown
  constructor
  · have hplain : Respelled (List.replicate 0 '0' ++ (a.digits radix.base).toList)
        (a.digits radix.base).toList := .refl _
    have hread : parse ("" ++ mark ++ a.digits radix.base ++ "") = _ :=
      parse_respelled hmark hplain (by simp) (by simp)
    simpa using hread
  · intro zeros body lead trail hbody hlead htrail
    exact parse_respelled hmark hbody hlead htrail

/-- An address that is aligned, spelled in base sixteen, and the one before it in base ten. -/
theorem printed_address_reads_back_spelled :
    render 16 ⟨428⟩ = "Address(1ac)" ∧ parse "\t0X0_1Ac_\n" = .ok ⟨428⟩ ∧
      render 10 ⟨427⟩ = "Address(427)" ∧ parse "4_27 " = .error .misaligned := by
  have hhex : render 16 ⟨428⟩ = "Address(1ac)" := by decide
  have hdec : render 10 ⟨427⟩ = "Address(427)" := by decide
  obtain ⟨-, hread⟩ := printed_address_reads_back ⟨428⟩ .hexadecimal "1ac" "0X" hhex (by decide)
  obtain ⟨-, hrefused⟩ := printed_address_reads_back ⟨427⟩ .decimal "427" "" hdec (by decide)
  have hbody : Respelled (List.replicate 1 '0' ++ "1ac".toList) "0_1Ac_".toList :=
    .keep '0' (.gap (.keep '1' (.upper 'a' (.keep 'c' (.gap .nil)))))
  have hbody' : Respelled (List.replicate 0 '0' ++ "427".toList) "4_27".toList :=
    .keep '4' (.gap (.keep '2' (.keep '7' .nil)))
  exact ⟨hhex, hread 1 "0_1Ac_" "\t" "\n" hbody (by simp [BlankChar]) (by simp [BlankChar]),
    hdec, hrefused 0 "4_27" "" " " hbody' (by simp) (by simp [BlankChar])⟩

end StageZero.Address
