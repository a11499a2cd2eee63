/-
# A start-up address that is accepted can be used

The image to be started is named by a text, long before anything is started.  This file follows it
from the text to the jump: which texts are accepted, what is said about the others, and what a jump
does with an address that was accepted.

* **Texts.**  All that counts about a text is the number that it spells, if it spells one at all
  (`startup_eq`).  A multiple of 128 is accepted.  The other numbers are refused with a reason that
  says how far they are aligned.
* **Addresses.**  A multiple of 128 survives being written to the vector base register, which drops
  the low seven bits, and is far enough below the top of the address space that the word after it
  does not wrap.
* **Jumps.**  Whatever a jump finds on a bench, it reads at the table and one word above it and
  nowhere else, and it never makes another table the current one (`mem_events_chainLoad`).
-/
import StageZero.Address.Startup
import StageZero.Proofs.AddressGrammar
import StageZero.Proofs.Jump

namespace StageZero

/-! ## 1. Texts -/

/-- **The texts that a refusal is for**, by what they spell without the blanks around them. -/
def StartupError.AppliesTo (t : List UInt8) : StartupError → Prop
  | .notANumber => ¬ ∃ v, Address.Numeral t v
  | .misaligned => ∃ v, Address.Numeral t v ∧ ¬ 4 ∣ v
  | .tableMisaligned => ∃ v, Address.Numeral t v ∧ 4 ∣ v ∧ ¬ 128 ∣ v

namespace Address

theorem holdsTable_iff_dvd (a : Address) : a.HoldsTable ↔ 128 ∣ a.val.toNat := by
  rw [HoldsTable, vectorTableAlign, ← UInt32.toNat_inj, UInt32.toNat_mod, Nat.dvd_iff_mod_eq_zero]
  rfl

/-- **A start-up address is judged by its number alone.** -/
theorem startup_eq (text : String) :
    startup text =
      match number? text.toByteArray.data.toList with
      | none => .error .notANumber
      | some v =>
        if 128 ∣ v.toNat then .ok ⟨v⟩
        else if 4 ∣ v.toNat then .error .tableMisaligned else .error .misaligned := by
  rw [startup, parse, ofBytes]
  cases number? text.toByteArray.data.toList with
  | none => rfl
  | some v =>
    have htable := holdsTable_iff_dvd ⟨v⟩
    have hword := aligned_iff_dvd ⟨v⟩
    by_cases h : 128 ∣ v.toNat
    · have h4 : 4 ∣ v.toNat := Dvd.dvd.trans (by decide) h
      simp [htable, hword, h, h4]
    · by_cases h4 : 4 ∣ v.toNat
      · simp [htable, hword, h, h4]
      · simp [hword, h, h4]

/-- What a text spells is what is read from it. -/
theorem numeral_iff_number? {text : List UInt8} {v : Nat} :
    Numeral (trim text) v ↔ (number? text).map UInt32.toNat = some v := by
  rw [numeral_trim_iff, Option.map_eq_some_iff]

theorem startup_eq_ok_iff (text : String) (a : Address) :
    startup text = .ok a ↔
      Numeral (trim text.toByteArray.data.toList) a.val.toNat ∧ 128 ∣ a.val.toNat := by
  obtain ⟨val⟩ := a
  rw [startup_eq, numeral_iff_number?]
  cases number? text.toByteArray.data.toList with
  | none => simp
  | some v =>
    simp only [Option.map_some, Option.some.injEq, UInt32.toNat_inj]
    constructor
    · intro hok
      by_cases h : 128 ∣ v.toNat
      · rw [if_pos h, Except.ok.injEq, mk.injEq] at hok
        exact ⟨hok, hok ▸ h⟩
      · rw [if_neg h] at hok
        split at hok <;> cases hok
    · rintro ⟨rfl, h⟩
      rw [if_pos h]

theorem startup_eq_error_iff (text : String) (e : StartupError) :
    startup text = .error e ↔ e.AppliesTo (trim text.toByteArray.data.toList) := by
  simp only [StartupError.AppliesTo, startup_eq, numeral_iff_number?]
  cases number? text.toByteArray.data.toList with
  | none => cases e <;> simp
  | some v =>
    by_cases h : 128 ∣ v.toNat
    · have h4 : 4 ∣ v.toNat := Dvd.dvd.trans (by decide) h
      cases e <;> simp [h, h4]
    · by_cases h4 : 4 ∣ v.toNat
      · cases e <;> simp [h, h4]
      · cases e <;> simp [h, h4]

/-- The wording with which a start-up address is refused. -/
def refusal? (text : String) : Option String :=
  match startup text with
  | .ok _ => none
  | .error e => some e.message

/-- No two refusals are worded alike. -/
theorem refusal?_eq_message_iff (text : String) (e : StartupError) :
    refusal? text = some e.message ↔ startup text = .error e := by
  rw [refusal?]
  cases startup text with
  | ok a => simp
  | error f => cases e <;> cases f <;> simp [StartupError.message]

end Address

/-! ## 2. Addresses -/

/-- What the vector base register keeps of a number that is written to it: all but the low seven
bits. -/
def keptByVectorBase (w : UInt32) : UInt32 := w >>> 7 <<< 7

section Multiple

variable {a : Address} (h : 128 ∣ a.val.toNat)
include h

theorem Address.low_bits_of_dvd : a.val &&& 0x7f = 0 := by
  apply UInt32.toNat_inj.mp
  rw [UInt32.toNat_and]
  exact (Nat.and_two_pow_sub_one_eq_mod a.val.toNat 7).trans (Nat.mod_eq_zero_of_dvd h)

theorem keptByVectorBase_of_dvd : keptByVectorBase a.val = a.val := by
  have hlt := UInt32.toNat_lt a.val
  apply UInt32.toNat_inj.mp
  simp only [keptByVectorBase, UInt32.toNat_shiftLeft, UInt32.toNat_shiftRight, UInt32.reduceToNat,
    Nat.shiftLeft_eq, Nat.shiftRight_eq_div_pow, Nat.reduceMod, Nat.reducePow]
  omega

/-- The word after a table that can be held does not wrap. -/
theorem Address.toNat_add_four_of_dvd :
    a.val.toNat + 4 < 2 ^ 32 ∧ (a.addWords 1).val.toNat = a.val.toNat + 4 := by
  have hlt := UInt32.toNat_lt a.val
  rw [toNat_addWords]
  simp only [UInt32.reduceToNat]
  omega

end Multiple

/-! ## 3. Jumps -/

/-- **All that a jump can ask of a bench.** -/
theorem Bench.mem_events_chainLoad {table : Address} {b : Bench} {e : Event}
    (he : e ∈ b.eventsSince (chainLoad table b).2) :
    e = .maskInterrupts ∨ e = .read table ∨ e = .read (table.addWords 1) ∨ e = .relocate table ∨
      ∃ sp entry, e = .start sp entry true := by
  cases hsp : b.memory[table]? with
  | none =>
    obtain ⟨spent, hrun, hspent⟩ := chainLoad_no_stackPointer hsp
    rw [hrun, eventsSince_eq hspent.log] at he
    simp only [List.map_cons, List.map_nil, List.mem_cons, List.not_mem_nil, or_false] at he
    rcases he with rfl | rfl <;> simp
  | some sp =>
    cases hentry : b.memory[table.addWords 1]? with
    | none =>
      obtain ⟨spent, hrun, hspent⟩ := chainLoad_no_entry hsp hentry
      rw [hrun, eventsSince_eq hspent.log] at he
      simp only [List.map_cons, List.map_nil, List.mem_cons, List.not_mem_nil, or_false] at he
      rcases he with rfl | rfl | rfl <;> simp
    | some entry =>
      rw [chainLoad_present hsp hentry, eventsSince_eq (log_handOver table sp entry b)] at he
      simp only [List.mem_cons, List.not_mem_nil, or_false] at he
      rcases he with rfl | rfl | rfl | rfl | rfl <;> simp

/-- It reads at the table and one word above, and nowhere else. -/
theorem Bench.read_of_chainLoad {table x : Address} {b : Bench}
    (h : .read x ∈ b.eventsSince (chainLoad table b).2) : x = table ∨ x = table.addWords 1 := by
  rcases mem_events_chainLoad h with h | h | h | h | ⟨sp, entry, h⟩
  · cases h
  · exact Or.inl (Event.read.inj h)
  · exact Or.inr (Event.read.inj h)
  · cases h
  · cases h

/-- It makes no other table the current one. -/
theorem Bench.relocate_of_chainLoad {table x : Address} {b : Bench}
    (h : .relocate x ∈ b.eventsSince (chainLoad table b).2) : x = table := by
  rcases mem_events_chainLoad h with h | h | h | h | ⟨sp, entry, h⟩
  · cases h
  · cases h
  · cases h
  · exact Event.relocate.inj h
  · cases h

open Address Bench

/-- **A start-up address that is accepted is one that a jump can use.**  Let `t` be what is left of a
text without the blanks around it.  The text is accepted exactly if `t` spells a multiple of 128; and
each of the three refusals, by its wording, is made exactly for the numbers that it speaks of, or for
texts that spell no number.

The low seven bits of an address that is accepted are zero, so that the vector base register holds it
as it is, and the word after it does not wrap.  A jump there, from whatever state of a bench, reads at
the address and four bytes above it only, and makes no other table the current one; and if both words
are there it reads both, in this order, and starts the image with this table. -/
theorem startup_names_usable_table (text : String) :
    ∃ t, (∀ u, Stripped text.toByteArray.data.toList u ↔ u = t) ∧
      (∀ a, startup text = .ok a ↔ Numeral t a.val.toNat ∧ 128 ∣ a.val.toNat) ∧
      (refusal? text = some "startup address must be aligned to 128 bytes" ↔
        ∃ v, Numeral t v ∧ 4 ∣ v ∧ ¬ 128 ∣ v) ∧
      (refusal? text = some "startup address must be word-aligned" ↔
        ∃ v, Numeral t v ∧ ¬ 4 ∣ v) ∧
      (refusal? text = some "startup address is not a valid 32-bit number" ↔
        ¬ ∃ v, Numeral t v) ∧
      ∀ a, startup text = .ok a →
        a.val &&& 0x7f = 0 ∧
        keptByVectorBase a.val = a.val ∧
        a.val.toNat + 4 < 2 ^ 32 ∧
        ∀ b : Bench,
          (∀ x, .read x ∈ b.eventsSince (chainLoad a b).2 →
            x.val.toNat = a.val.toNat ∨ x.val.toNat = a.val.toNat + 4) ∧
          (∀ x, .relocate x ∈ b.eventsSince (chainLoad a b).2 → x = a) ∧
          ∀ second : Address, second.val.toNat = a.val.toNat + 4 →
            ∀ sp entry, b.memory[a]? = some sp → b.memory[second]? = some entry →
              ∃ final, chainLoad a b = (.diverged .started, final) ∧
                b.eventsSince final = [.maskInterrupts, .read a, .read second, .relocate a,
                  .start sp entry true] ∧
                final.vectorBase = a := by
  have hrefused : ∀ e : StartupError, refusal? text = some e.message ↔
      e.AppliesTo (trim text.toByteArray.data.toList) := fun e =>
    (refusal?_eq_message_iff text e).trans (startup_eq_error_iff text e)
  refine ⟨_, fun u => stripped_iff, startup_eq_ok_iff text, hrefused .tableMisaligned,
    hrefused .misaligned, hrefused .notANumber, ?_⟩
  intro a ha
  have htable : 128 ∣ a.val.toNat := ((startup_eq_ok_iff text a).mp ha).2
  obtain ⟨hbelow, hsecond⟩ := toNat_add_four_of_dvd htable
  refine ⟨low_bits_of_dvd htable, keptByVectorBase_of_dvd htable, hbelow, fun b => ⟨?_, ?_, ?_⟩⟩
  · intro x hread
    rcases read_of_chainLoad hread with rfl | rfl
    · exact Or.inl rfl
    · exact Or.inr hsecond
  · exact fun x => relocate_of_chainLoad
  · intro second hval sp entry hsp hentry
    obtain rfl : second = a.addWords 1 := ext_toNat (hval.trans hsecond.symm)
    exact ⟨_, chainLoad_present hsp hentry, eventsSince_eq (log_handOver a sp entry b), rfl⟩

/-- The highest address that is accepted, with a jump that finds both of its words there. -/
theorem startup_names_usable_table_highest :
    let a : Address := ⟨0xffffff80⟩
    let b := placeWords a [0x20010000, 0x08008101] Bench.empty
    startup "\t4_294_967_168 " = .ok a ∧
      ∃ final, chainLoad a b = (.diverged .started, final) ∧
        b.eventsSince final = [.maskInterrupts, .read a, .read ⟨0xffffff84⟩, .relocate a,
          .start 0x20010000 0x08008101 true] ∧
        final.vectorBase = a := by
  intro a b
  have ha : startup "\t4_294_967_168 " = .ok a := by decide
  obtain ⟨-, -, -, -, -, -, husable⟩ := startup_names_usable_table "\t4_294_967_168 "
  obtain ⟨-, -, -, hjump⟩ := husable a ha
  obtain ⟨-, -, hstarts⟩ := hjump b
  exact ⟨ha, hstarts ⟨0xffffff84⟩ (by decide) _ _ (by decide) (by decide)⟩

end StageZero
