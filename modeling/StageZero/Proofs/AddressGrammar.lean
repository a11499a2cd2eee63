/-
# The texts that spell an address

`Address.parse` reads a text once from left to right, drops what it ignores, and gives up at the
first byte or at the first overflow that it does not like.  What it accepts can be said without any
of that: a text, without the blanks around it, spells a number if it is made of digits of its radix
and of underscores, at least one of them a digit, and if the number is below `2 ^ 32` (`Numeral`).
The number is that of its digits as a whole, however many of them are zeros at the front.

This file proves that the two agree (`number?_eq_some_iff`), and with it which of three answers a
text of any length gets.

* **Overflow.**  The running value is checked after each digit.  A further digit never makes a
  number smaller, so a number that fits has fitted at each step before (`le_horner`).
* **Radix.**  A text that begins with `0x` and has a third byte is hexadecimal and nothing else; one
  of just these two bytes is decimal, and then no number.
* **Errors.**  A text that spells no number is never called misaligned.
-/
import Mathlib.Data.List.TakeWhile
import Mathlib.Data.Nat.Digits.Defs
import StageZero.Address.Parser

namespace StageZero.Address

/-! ## 1. Blanks -/

/-- A byte that may stand around an address: space, tab, line feed, form feed, carriage return. -/
def Blank (b : UInt8) : Prop := b ∈ [' ', '\t', '\n', '\x0c', '\r'].map Char.toUInt8

/-- **`t` is what is left of a text without the blanks around it.** -/
structure Stripped (text t : List UInt8) : Prop where
  around : ∃ lead trail, text = lead ++ t ++ trail ∧ (∀ b ∈ lead, Blank b) ∧ ∀ b ∈ trail, Blank b
  first : ∀ b ∈ t.head?, ¬ Blank b
  last : ∀ b ∈ t.getLast?, ¬ Blank b

theorem isBlank_iff (b : UInt8) : isBlank b = true ↔ Blank b := by
  simp [isBlank, Blank, Char.toUInt8]
  grind

theorem dropWhile_blanks {lead t : List UInt8} (hlead : ∀ b ∈ lead, Blank b)
    (ht : ∀ b ∈ t.head?, ¬ Blank b) : (lead ++ t).dropWhile isBlank = t := by
  rw [List.dropWhile_append_of_pos fun b hb => (isBlank_iff b).mpr (hlead b hb)]
  cases t with
  | nil => rfl
  | cons b rest =>
    have hb : ¬ isBlank b = true := fun h => ht b rfl ((isBlank_iff b).mp h)
    rw [List.dropWhile_cons_of_neg hb]

theorem not_blank_of_head_dropWhile {l : List UInt8} {b : UInt8}
    (hb : b ∈ (l.dropWhile isBlank).head?) : ¬ Blank b := by
  have hnot := List.head?_dropWhile_not isBlank l
  rw [Option.mem_def.mp hb] at hnot
  rw [← isBlank_iff, hnot]
  exact Bool.false_ne_true

/-- Trimming strips a text. -/
theorem stripped_trim (text : List UInt8) : Stripped text (trim text) := by
  have hblank : ∀ l : List UInt8, ∀ b ∈ l.takeWhile isBlank, Blank b :=
    fun l b hb => (isBlank_iff b).mp (List.mem_takeWhile_imp hb)
  have hmiddle : text.dropWhile isBlank =
      trim text ++ ((text.dropWhile isBlank).reverse.takeWhile isBlank).reverse := by
    rw [trim, ← List.reverse_append, List.takeWhile_append_dropWhile, List.reverse_reverse]
  refine ⟨⟨text.takeWhile isBlank, ((text.dropWhile isBlank).reverse.takeWhile isBlank).reverse,
    ?_, hblank text, fun b hb => hblank _ b (List.mem_reverse.mp hb)⟩, ?_, ?_⟩
  · rw [List.append_assoc, ← hmiddle, List.takeWhile_append_dropWhile]
  · intro b hb
    apply not_blank_of_head_dropWhile (l := text)
    rw [hmiddle, List.head?_append, Option.mem_def.mp hb]
    rfl
  · intro b hb
    rw [trim, List.getLast?_reverse] at hb
    exact not_blank_of_head_dropWhile hb

/-- **There is just one way to strip a text**, and trimming is it. -/
theorem stripped_iff {text t : List UInt8} : Stripped text t ↔ t = trim text := by
  constructor
  · rintro ⟨⟨lead, trail, rfl, hlead, htrail⟩, hfirst, hlast⟩
    have hback : ∀ b ∈ trail.reverse, Blank b := fun b hb => htrail b (List.mem_reverse.mp hb)
    cases t with
    | nil =>
      -- Nothing is left, so the blanks before and behind are one run of blanks.
      have hall : (lead ++ [] ++ trail).dropWhile isBlank = [] := by
        have hblanks : ∀ b ∈ lead ++ trail, Blank b := List.forall_mem_append.mpr ⟨hlead, htrail⟩
        have h := dropWhile_blanks hblanks hfirst
        rwa [List.append_nil] at h ⊢
      rw [trim, hall]
      rfl
    | cons b rest =>
      have hfront : (lead ++ (b :: rest) ++ trail).dropWhile isBlank = (b :: rest) ++ trail := by
        rw [List.append_assoc]
        exact dropWhile_blanks hlead hfirst
      have hend : ∀ x ∈ (b :: rest).reverse.head?, ¬ Blank x := by
        rw [List.head?_reverse]
        exact hlast
      rw [trim, hfront, List.reverse_append, dropWhile_blanks hback hend, List.reverse_reverse]
  · rintro rfl
    exact stripped_trim text

/-! ## 2. Digits -/

/-- A byte spells a digit, by its figure, or by its letter in either case. -/
def SpellsDigit (d : Nat) (b : UInt8) : Prop :=
  b = (Nat.digitChar d).toUInt8 ∨ b = (Nat.digitChar d).toUpper.toUInt8

/-- **A text of digits and underscores, and the digits of it in order.** -/
inductive Spelled (base : Nat) : List UInt8 → List Nat → Prop
  | nil : Spelled base [] []
  | gap {body digits} (h : Spelled base body digits) : Spelled base ('_'.toUInt8 :: body) digits
  | digit {b d body digits} (hd : d < base) (hb : SpellsDigit d b) (h : Spelled base body digits) :
      Spelled base (b :: body) (d :: digits)

/-- The bytes of the digits, figures and letters. -/
theorem toNat_digitChar : ∀ d < 16,
    (Nat.digitChar d).toUInt8.toNat = (if d < 10 then 48 + d else 87 + d) ∧
      (Nat.digitChar d).toUpper.toUInt8.toNat = if d < 10 then 48 + d else 55 + d := by
  decide

theorem spellsDigit_iff {d : Nat} (hd : d < 16) (b : UInt8) :
    SpellsDigit d b ↔ b.toNat = (if d < 10 then 48 + d else 87 + d) ∨
      b.toNat = if d < 10 then 48 + d else 55 + d := by
  obtain ⟨hlower, hupper⟩ := toNat_digitChar d hd
  rw [SpellsDigit, ← UInt8.toNat_inj, ← UInt8.toNat_inj, hlower, hupper]

theorem digitValue?_eq_some_iff {b : UInt8} {d : Nat} :
    digitValue? b = some d ↔ d < 16 ∧ SpellsDigit d b := by
  have hvalue : digitValue? b = some d ↔ d < 16 ∧
      (b.toNat = (if d < 10 then 48 + d else 87 + d) ∨
        b.toNat = if d < 10 then 48 + d else 55 + d) := by
    simp only [digitValue?, UInt8.le_iff_toNat_le, UInt8.reduceToNat]
    split_ifs <;> simp only [Option.some.injEq, false_iff] <;> omega
  rw [hvalue]
  exact and_congr_right fun hd => (spellsDigit_iff hd b).symm

theorem Radix.digit?_eq_some_iff {radix : Radix} {b : UInt8} {d : Nat} :
    radix.digit? b = some d ↔ d < radix.base ∧ SpellsDigit d b := by
  have hbase : radix.base ≤ 16 := by cases radix <;> decide
  rw [Radix.digit?, Option.filter_eq_some_iff, digitValue?_eq_some_iff, decide_eq_true_eq]
  constructor
  · rintro ⟨⟨-, hb⟩, hd⟩
    exact ⟨hd, hb⟩
  · rintro ⟨hd, hb⟩
    exact ⟨⟨by omega, hb⟩, hd⟩

/-- The underscore is no digit, so that a spelling has no second reading. -/
theorem Radix.digit?_underscore (radix : Radix) : radix.digit? underscore = none := by
  cases radix <;> rfl

section First

variable {radix : Radix} {b : UInt8} {d : Nat} {body : List UInt8} {digits : List Nat}

/-- An underscore at the front of a spelling means nothing. -/
theorem spelled_gap_iff :
    Spelled radix.base (underscore :: body) digits ↔ Spelled radix.base body digits := by
  constructor
  · intro h
    cases h with
    | gap h => exact h
    | digit hd hb _ =>
      have hsome := Radix.digit?_eq_some_iff.mpr ⟨hd, hb⟩
      rw [Radix.digit?_underscore] at hsome
      cases hsome
  · exact .gap

/-- A digit at the front of a spelling is its first digit. -/
theorem spelled_digit_iff (hd : radix.digit? b = some d) :
    Spelled radix.base (b :: body) digits ↔
      ∃ later, digits = d :: later ∧ Spelled radix.base body later := by
  constructor
  · intro h
    cases h with
    | gap _ =>
      have hnone : radix.digit? '_'.toUInt8 = none := radix.digit?_underscore
      rw [hnone] at hd
      cases hd
    | digit hd' hb h =>
      rw [Radix.digit?_eq_some_iff.mpr ⟨hd', hb⟩] at hd
      cases hd
      exact ⟨_, rfl, h⟩
  · rintro ⟨later, rfl, h⟩
    obtain ⟨hlt, hb⟩ := Radix.digit?_eq_some_iff.mp hd
    exact .digit hlt hb h

/-- Any other byte is in no spelling. -/
theorem not_spelled (hb : b ≠ underscore) (hd : radix.digit? b = none) :
    ¬ Spelled radix.base (b :: body) digits := by
  intro h
  cases h with
  | gap _ => exact hb rfl
  | digit hlt hdigit _ =>
    rw [Radix.digit?_eq_some_iff.mpr ⟨hlt, hdigit⟩] at hd
    cases hd

end First

/-! ## 3. The value of digits -/

/-- The number that digits make behind a number that is there already. -/
def horner (base acc : Nat) (digits : List Nat) : Nat :=
  digits.foldl (fun n d => n * base + d) acc

theorem horner_cons (base acc d : Nat) (digits : List Nat) :
    horner base acc (d :: digits) = horner base (acc * base + d) digits := rfl

/-- **Further digits never make a number smaller.** -/
theorem le_horner {base : Nat} (hbase : 0 < base) (digits : List Nat) :
    ∀ acc, acc ≤ horner base acc digits := by
  induction digits with
  | nil => exact fun acc => Nat.le_refl acc
  | cons d digits ih =>
    intro acc
    calc acc ≤ acc * base := Nat.le_mul_of_pos_right acc hbase
      _ ≤ acc * base + d := Nat.le_add_right _ d
      _ ≤ horner base acc (d :: digits) := ih _

/-- With nothing before them, digits make the number that has them, the highest first. -/
theorem horner_zero (base : Nat) (digits : List Nat) :
    horner base 0 digits = Nat.ofDigits base digits.reverse := by
  rw [Nat.ofDigits_eq_foldr, List.foldr_reverse, horner]
  simp only [Nat.cast_id, Nat.mul_comm base, Nat.add_comm]

theorem Radix.base_pos (radix : Radix) : 0 < radix.base := by cases radix <;> decide

theorem Radix.extend?_eq_some_iff {radix : Radix} {value longer : UInt32} {d : Nat} :
    radix.extend? value d = some longer ↔ longer.toNat = value.toNat * radix.base + d := by
  have hlt := UInt32.toNat_lt longer
  simp only [Radix.extend?]
  split
  · rename_i h
    rw [Option.some.injEq, ← UInt32.toNat_inj, UInt32.toNat_ofNat_of_lt' h, eq_comm]
  · rename_i h
    simp only [UInt32.size] at h
    constructor
    · intro hnone
      cases hnone
    · intro hval
      omega

/-! ## 4. The scanner -/

namespace Radix

variable {radix : Radix} {v : UInt32}

theorem scan_gap (seen : Option UInt32) (rest : List UInt8) :
    radix.scan seen (underscore :: rest) = radix.scan seen rest := by
  rw [scan, if_pos rfl]

theorem scan_digit {b : UInt8} {d : Nat} (hd : radix.digit? b = some d) (seen : Option UInt32)
    (rest : List UInt8) :
    radix.scan seen (b :: rest) =
      (radix.extend? (seen.getD 0) d).bind fun value => radix.scan (some value) rest := by
  have hb : b ≠ underscore := by
    rintro rfl
    rw [digit?_underscore] at hd
    cases hd
  simp only [scan, if_neg hb, hd]
  cases radix.extend? (seen.getD 0) d <;> rfl

theorem scan_other {b : UInt8} (hb : b ≠ underscore) (hd : radix.digit? b = none)
    (seen : Option UInt32) (rest : List UInt8) : radix.scan seen (b :: rest) = none := by
  rw [scan, if_neg hb, hd]

/-- **The scanner reads exactly the spellings of numbers that fit.**  The induction is on the bytes
that are left; what was seen before them is their accumulator. -/
theorem scan_eq_some_iff : ∀ (body : List UInt8) (seen : Option UInt32),
    radix.scan seen body = some v ↔
      ∃ digits, Spelled radix.base body digits ∧ (seen = none → digits ≠ []) ∧
        horner radix.base (seen.getD 0).toNat digits = v.toNat
  | [], seen => by
    rw [scan]
    constructor
    · rintro rfl
      exact ⟨[], .nil, nofun, rfl⟩
    · rintro ⟨digits, hspelled, hsome, hvalue⟩
      cases hspelled
      cases seen with
      | none => exact absurd rfl (hsome rfl)
      | some s => exact congrArg some (UInt32.toNat_inj.mp hvalue)
  | b :: rest, seen => by
    by_cases hb : b = underscore
    · rw [hb, scan_gap, scan_eq_some_iff rest seen]
      simp only [spelled_gap_iff]
    · cases hd : radix.digit? b with
      | none =>
        rw [scan_other hb hd]
        constructor
        · intro h
          cases h
        · rintro ⟨digits, hspelled, -⟩
          exact absurd hspelled (not_spelled hb hd)
      | some d =>
        rw [scan_digit hd, Option.bind_eq_some_iff]
        constructor
        · rintro ⟨longer, hlonger, hscan⟩
          obtain ⟨later, hspelled, -, hvalue⟩ := (scan_eq_some_iff rest _).mp hscan
          refine ⟨d :: later, (spelled_digit_iff hd).mpr ⟨later, rfl, hspelled⟩, ?_, ?_⟩
          · exact fun _ => List.cons_ne_nil d later
          · rwa [horner_cons, ← extend?_eq_some_iff.mp hlonger]
        · rintro ⟨digits, hspelled, -, hvalue⟩
          obtain ⟨later, rfl, hlater⟩ := (spelled_digit_iff hd).mp hspelled
          rw [horner_cons] at hvalue
          -- The whole number fits, and so does this part of it.
          have hle := le_horner radix.base_pos later ((seen.getD 0).toNat * radix.base + d)
          have hfits : (seen.getD 0).toNat * radix.base + d < UInt32.size := by
            have hv : v.toNat < UInt32.size := UInt32.toNat_lt v
            omega
          have hlonger := UInt32.toNat_ofNat_of_lt' hfits
          refine ⟨_, extend?_eq_some_iff.mpr hlonger, (scan_eq_some_iff rest _).mpr ?_⟩
          exact ⟨later, hlater, nofun, by rw [Option.getD_some, hlonger, hvalue]⟩

end Radix

/-! ## 5. Whole texts -/

/-- A text is marked as hexadecimal: it begins with `0x` or `0X`, and goes on. -/
def HexMarked (t : List UInt8) : Prop :=
  2 < t.length ∧ t[0]? = some '0'.toUInt8 ∧
    (t[1]? = some 'x'.toUInt8 ∨ t[1]? = some 'X'.toUInt8)

instance (t : List UInt8) : Decidable (HexMarked t) := inferInstanceAs (Decidable (_ ∧ _ ∧ _))

/-- The radix in which a stripped text is to be read. -/
def baseOf (t : List UInt8) : Nat := if HexMarked t then 16 else 10

/-- The part of a stripped text that is to be read. -/
def bodyOf (t : List UInt8) : List UInt8 := if HexMarked t then t.drop 2 else t

/-- **A stripped text spells a number that fits a word.** -/
def Numeral (t : List UInt8) (v : Nat) : Prop :=
  ∃ digits, Spelled (baseOf t) (bodyOf t) digits ∧ digits ≠ [] ∧
    Nat.ofDigits (baseOf t) digits.reverse = v ∧ v < UInt32.size

/-- A text is split as its first bytes say. -/
theorem splitRadix_eq (t : List UInt8) :
    (splitRadix t).1.base = baseOf t ∧ (splitRadix t).2 = bodyOf t := by
  by_cases hmarked : HexMarked t
  · obtain ⟨hlength, hzero, hmark⟩ := id hmarked
    match t with
    | zero :: mark :: digit :: rest =>
      have hhex : zero = 0x30 ∧ (mark = 0x78 ∨ mark = 0x58) := by
        simpa [Char.toUInt8] using And.intro hzero hmark
      simp only [splitRadix, if_pos hhex, baseOf, bodyOf, if_pos hmarked]
      exact ⟨rfl, rfl⟩
  · rw [baseOf, bodyOf, if_neg hmarked, if_neg hmarked]
    unfold splitRadix
    split
    · rename_i zero mark digit rest
      have hhex : ¬ (zero = 0x30 ∧ (mark = 0x78 ∨ mark = 0x58)) := by
        simpa [HexMarked, Char.toUInt8] using hmarked
      rw [if_neg hhex]
      exact ⟨rfl, rfl⟩
    · exact ⟨rfl, rfl⟩

/-- **A number is read from exactly the texts that spell it.** -/
theorem number?_eq_some_iff {text : List UInt8} {v : UInt32} :
    number? text = some v ↔ Numeral (trim text) v.toNat := by
  obtain ⟨hbase, hbody⟩ := splitRadix_eq (trim text)
  have hscan : number? text = (splitRadix (trim text)).1.scan none (splitRadix (trim text)).2 := rfl
  rw [hscan, Radix.scan_eq_some_iff, hbase, hbody, Numeral]
  constructor
  · rintro ⟨digits, hspelled, hsome, hvalue⟩
    have hzero : horner (baseOf (trim text)) 0 digits = v.toNat := hvalue
    rw [horner_zero] at hzero
    exact ⟨digits, hspelled, hsome rfl, hzero, UInt32.toNat_lt v⟩
  · rintro ⟨digits, hspelled, hsome, hvalue, -⟩
    rw [← horner_zero] at hvalue
    exact ⟨digits, hspelled, fun _ => hsome, hvalue⟩

/-- The numbers that a text spells are those that are read from it. -/
theorem numeral_trim_iff {text : List UInt8} {v : Nat} :
    Numeral (trim text) v ↔ ∃ w : UInt32, number? text = some w ∧ w.toNat = v := by
  constructor
  · intro hnumeral
    obtain ⟨-, -, -, -, hfits⟩ := id hnumeral
    have hword := UInt32.toNat_ofNat_of_lt' hfits
    exact ⟨UInt32.ofNat v, number?_eq_some_iff.mpr (by rwa [hword]), hword⟩
  · rintro ⟨w, hnumber, rfl⟩
    exact number?_eq_some_iff.mp hnumber

theorem ofBytes_eq_ok_iff {text : List UInt8} {a : Address} :
    ofBytes text = .ok a ↔ number? text = some a.val ∧ a.Aligned := by
  obtain ⟨val⟩ := a
  cases hnumber : number? text with
  | none => simp [ofBytes, hnumber]
  | some v =>
    by_cases haligned : Aligned ⟨v⟩
    · simp only [ofBytes, hnumber, if_pos haligned, Except.ok.injEq, Option.some.injEq, mk.injEq]
      exact ⟨fun h => ⟨h, h ▸ haligned⟩, fun h => h.1⟩
    · simp only [ofBytes, hnumber, if_neg haligned, reduceCtorEq, Option.some.injEq, false_iff]
      rintro ⟨rfl, h⟩
      exact haligned h

theorem ofBytes_eq_misaligned_iff {text : List UInt8} :
    ofBytes text = .error .misaligned ↔ ∃ v, number? text = some v ∧ ¬ Aligned ⟨v⟩ := by
  cases hnumber : number? text with
  | none => simp [ofBytes, hnumber]
  | some v =>
    by_cases haligned : Aligned ⟨v⟩
    · simp [ofBytes, hnumber, haligned]
    · simp [ofBytes, hnumber, haligned]

theorem ofBytes_eq_invalid_iff {text : List UInt8} :
    ofBytes text = .error .invalidAddress ↔ number? text = none := by
  cases hnumber : number? text with
  | none => simp [ofBytes, hnumber]
  | some v =>
    by_cases haligned : Aligned ⟨v⟩
    · simp [ofBytes, hnumber, haligned]
    · simp [ofBytes, hnumber, haligned]

theorem aligned_iff_dvd (a : Address) : a.Aligned ↔ 4 ∣ a.val.toNat :=
  (aligned_iff a).trans Nat.dvd_iff_mod_eq_zero.symm

/-- **Which texts are addresses.**  Let `t` be what is left of a text without the blanks around it.
The text is read as an address exactly if `t` spells its number and the number is a multiple of
four; it is misaligned exactly if `t` spells some other number; and it is invalid exactly if `t`
spells none. -/
theorem parse_reads_grammar (text : String) :
    ∃ t, (∀ u, Stripped text.toByteArray.data.toList u ↔ u = t) ∧
      (∀ a, parse text = .ok a ↔ Numeral t a.val.toNat ∧ 4 ∣ a.val.toNat) ∧
      (parse text = .error .misaligned ↔ ∃ v, Numeral t v ∧ ¬ 4 ∣ v) ∧
      (parse text = .error .invalidAddress ↔ ¬ ∃ v, Numeral t v) := by
  refine ⟨trim text.toByteArray.data.toList, fun u => stripped_iff, fun a => ?_, ?_, ?_⟩
  · rw [parse, ofBytes_eq_ok_iff, number?_eq_some_iff, aligned_iff_dvd]
  · rw [parse, ofBytes_eq_misaligned_iff]
    constructor
    · rintro ⟨w, hnumber, hmis⟩
      exact ⟨w.toNat, number?_eq_some_iff.mp hnumber, fun h => hmis ((aligned_iff_dvd ⟨w⟩).mpr h)⟩
    · rintro ⟨v, hnumeral, hmis⟩
      obtain ⟨w, hnumber, rfl⟩ := numeral_trim_iff.mp hnumeral
      exact ⟨w, hnumber, fun h => hmis ((aligned_iff_dvd ⟨w⟩).mp h)⟩
  · rw [parse, ofBytes_eq_invalid_iff]
    constructor
    · rintro hnone ⟨v, hnumeral⟩
      obtain ⟨w, hnumber, -⟩ := numeral_trim_iff.mp hnumeral
      rw [hnone] at hnumber
      cases hnumber
    · intro h
      cases hnumber : number? text.toByteArray.data.toList with
      | none => rfl
      | some w => exact absurd ⟨w.toNat, number?_eq_some_iff.mp hnumber⟩ h

example : parse " 0X_0800_8000_\n" = .ok ⟨0x08008000⟩ := by decide

end StageZero.Address
