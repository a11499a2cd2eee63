/-
# Cells that share bytes

Cells of eight types lie over one block of bytes, and any two of them may overlap in part.  This file
proves that all there is to an access is its bytes: a cell is set by putting the bytes of the value
in place, the lowest first and negative numbers in two's complement, and its value is what these bytes
are in its own type, whoever put them there.

* **The bytes of a value** (`IntType.encoding`) are cut out of its bits, and **the value of bytes**
  (`IntType.decoding`) is that of the bits put together again.  Neither knows of memory.
* **A cell is set byte by byte** (`Cell.byte_set`), and reads as the value that has the bytes there
  (`Cell.get_eq_decoding`, `Cell.getElem?_encoding_get`).

All laws of cells follow from these.  After any accesses, a byte is that of the last set that covered
it (`Buffer.byte_after`), by induction on the accesses.
-/
import Mathlib.Data.List.Induction
import Mathlib.Data.Nat.Digits.Defs
import StageZero.Cell
import StageZero.Proofs.BoardWords

namespace StageZero

/-! ## 1. Numbers and their bytes in memory -/

namespace Bytes

/-- **Each byte of a number that is put into memory.** -/
theorem get_writeLE (m : Bytes) (i n v j : Nat) :
    (m.writeLE i n v).get j =
      if i ≤ j ∧ j < i + n then UInt8.ofNat (v / 256 ^ (j - i)) else m.get j := by
  induction n generalizing m i v with
  | zero =>
    have hnot : ¬ (i ≤ j ∧ j < i + 0) := by omega
    rw [writeLE, if_neg hnot]
  | succ n ih =>
    rw [writeLE, ih, get_set]
    by_cases hj : j = i
    · simp [hj]
    · by_cases hin : i + 1 ≤ j ∧ j < i + 1 + n
      · have hk : j - i = (j - (i + 1)) + 1 := by omega
        rw [if_pos hin, if_pos (by omega), hk, Nat.pow_succ', Nat.div_div_eq_div_mul]
      · rw [if_neg hin, if_neg hj, if_neg (by omega)]

/-- A number in memory is made of its bytes. -/
theorem readLE_eq_ofDigits (m : Bytes) (i n : Nat) :
    m.readLE i n = Nat.ofDigits 256 ((m.window i n).map UInt8.toNat) := by
  induction n generalizing i with
  | zero => rfl
  | succ n ih =>
    rw [readLE, window, List.map_cons, Nat.ofDigits_cons, ih]

theorem readLE_lt (m : Bytes) (i n : Nat) : m.readLE i n < 256 ^ n := by
  induction n generalizing i with
  | zero => exact Nat.one_pos
  | succ n ih =>
    have hbyte : (m.get i).toNat < 256 := UInt8.toNat_lt _
    have hrest := ih (i + 1)
    rw [readLE, Nat.pow_succ']
    omega

/-- Its bytes are those of memory. -/
theorem ofNat_readLE_div (m : Bytes) (i : Nat) {n k : Nat} (hk : k < n) :
    UInt8.ofNat (m.readLE i n / 256 ^ k) = m.get (i + k) := by
  induction n generalizing i k with
  | zero => omega
  | succ n ih =>
    have hbyte : (m.get i).toNat < 256 := UInt8.toNat_lt _
    cases k with
    | zero =>
      have hlow : (UInt8.ofNat (m.readLE i (n + 1))).toNat = (m.get i).toNat := by
        rw [UInt8.toNat_ofNat', readLE]
        omega
      rw [Nat.pow_zero, Nat.div_one, Nat.add_zero]
      exact UInt8.toNat_inj.mp hlow
    | succ k =>
      have hrest : m.readLE i (n + 1) / 256 = m.readLE (i + 1) n := by
        rw [readLE]
        omega
      rw [Nat.pow_succ', ← Nat.div_div_eq_div_mul, hrest, ih (i + 1) (by omega)]
      congr 1
      omega

end Bytes

/-! ## 2. Values and their bytes -/

namespace IntType

/-- **The bytes of a value**, the lowest first, in two's complement. -/
def encoding (t : IntType) (v : Int) : List UInt8 :=
  (List.range t.width.bytes).map fun k =>
    ⟨(BitVec.ofInt (8 * t.width.bytes) v).extractLsb' (8 * k) 8⟩

/-- **The value of bytes**, the lowest first, in two's complement if the type has negative
values. -/
def decoding (t : IntType) (bytes : List UInt8) : Int :=
  let bits := BitVec.ofNat (8 * t.width.bytes) (Nat.ofDigits 256 (bytes.map UInt8.toNat))
  if t.signed then bits.toInt else bits.toNat

theorem card_eq (t : IntType) : t.card = 256 ^ t.width.bytes := by
  obtain ⟨width, signed⟩ := t
  cases width <;>
    simp [card, Width.card, Width.bytes, UInt8.size, UInt16.size, UInt32.size, UInt64.size]

theorem card_eq_two_pow (t : IntType) : t.card = 2 ^ (8 * t.width.bytes) := by
  rw [card_eq, Nat.pow_mul]

theorem encode_lt (t : IntType) (v : Int) : t.encode v < t.card := by
  have hpos : (0 : Int) < t.card := by
    rw [card_eq]
    positivity
  have hlt := Int.emod_lt_of_pos v hpos
  have hnonneg := Int.emod_nonneg v (Int.ne_of_gt hpos)
  rw [encode]
  omega

/-- The bits of a value are those of its two's complement. -/
theorem toNat_ofInt (t : IntType) (v : Int) :
    (BitVec.ofInt (8 * t.width.bytes) v).toNat = t.encode v := by
  rw [BitVec.toNat_ofInt, encode, card_eq_two_pow]

theorem getElem?_encoding (t : IntType) (v : Int) (k : Nat) :
    (t.encoding v)[k]? =
      if k < t.width.bytes then some (UInt8.ofNat (t.encode v / 256 ^ k)) else none := by
  by_cases hk : k < t.width.bytes
  · rw [if_pos hk, encoding, List.getElem?_map, List.getElem?_range hk, Option.map_some,
      Option.some.injEq]
    apply UInt8.toNat_inj.mp
    have hpow : 2 ^ (8 * k) = 256 ^ k := Nat.pow_mul 2 8 k
    rw [UInt8.toNat_ofNat', ← toNat_ofInt, ← hpow, ← Nat.shiftRight_eq_div_pow]
    exact BitVec.extractLsb'_toNat _ _ _
  · rw [if_neg hk, encoding]
    simp [hk]

/-- Half of the bit patterns have the highest bit set. -/
theorem two_mul_half_card (t : IntType) : 2 * (t.card / 2) = t.card := by
  have hbytes : t.width.bytes ≠ 0 := by cases t.width <;> decide
  have hdvd : 2 ∣ t.card := by
    rw [card_eq]
    exact dvd_pow (by decide) hbytes
  exact Nat.mul_div_cancel' hdvd

/-- **The value of some bits** is theirs in two's complement, or theirs as a number. -/
theorem decode_eq {t : IntType} {bits : Nat} (h : bits < t.card) :
    t.decode bits =
      let x := BitVec.ofNat (8 * t.width.bytes) bits
      if t.signed then x.toInt else x.toNat := by
  have hcard := card_eq_two_pow t
  have hhalf := two_mul_half_card t
  have hbits : (BitVec.ofNat (8 * t.width.bytes) bits).toNat = bits := by
    rw [BitVec.toNat_ofNat, ← hcard, Nat.mod_eq_of_lt h]
  simp only [decode, BitVec.toInt_eq_toNat_cond, hbits, ← hcard]
  cases t.signed with
  | false => rfl
  | true =>
    by_cases hhigh : t.card / 2 ≤ bits
    · have hnot : ¬ 2 * bits < t.card := by omega
      simp [hhigh, hnot]
    · have hlow : 2 * bits < t.card := by omega
      simp [hhigh, hlow]

/-- The value of some bits is of its type. -/
theorem holds_decode {t : IntType} {bits : Nat} (h : bits < t.card) : t.Holds (t.decode bits) := by
  obtain ⟨width, signed⟩ := t
  cases width <;> cases signed <;>
    simp [Holds, lowest, card, Width.card, UInt8.size, UInt16.size, UInt32.size, UInt64.size,
      decode] at h ⊢ <;>
    omega

/-- It has these bits. -/
theorem encode_decode {t : IntType} {bits : Nat} (h : bits < t.card) :
    t.encode (t.decode bits) = bits := by
  obtain ⟨width, signed⟩ := t
  cases width <;> cases signed <;>
    simp [card, Width.card, UInt8.size, UInt16.size, UInt32.size, UInt64.size, decode,
      encode] at h ⊢ <;>
    omega

end IntType

/-! ## 3. One access -/

/-- The byte that an access puts at a place, if it covers that place. -/
def Access.byteAt? (j : Nat) : Access → Option UInt8
  | .get _ => none
  | .set c v => if c.offset ≤ j then (c.type.encoding v)[j - c.offset]? else none

namespace Cell

/-- Two cells have no byte in common. -/
def Apart (c d : Cell) : Prop :=
  c.offset + c.type.width.bytes ≤ d.offset ∨ d.offset + d.type.width.bytes ≤ c.offset

/-- Setting a cell puts a byte at the places of the cell, and nowhere else. -/
theorem byteAt?_set (c : Cell) (v : Int) (j : Nat) :
    Access.byteAt? j (.set c v) =
      if c.offset ≤ j ∧ j < c.offset + c.type.width.bytes then
        some (UInt8.ofNat (c.type.encode v / 256 ^ (j - c.offset)))
      else none := by
  rw [Access.byteAt?, IntType.getElem?_encoding]
  by_cases hlo : c.offset ≤ j
  · have hiff : j - c.offset < c.type.width.bytes ↔ j < c.offset + c.type.width.bytes := by omega
    simp [hlo, hiff]
  · simp [hlo]

/-- **A cell is set byte by byte.** -/
theorem byte_set (c : Cell) (v : Int) (m : Bytes) (j : Nat) :
    (c.set v m).get j = (Access.byteAt? j (.set c v)).getD (m.get j) := by
  rw [set, Bytes.get_writeLE, byteAt?_set]
  split_ifs <;> rfl

theorem readLE_lt_card (c : Cell) (m : Bytes) :
    m.readLE c.offset c.type.width.bytes < c.type.card := by
  rw [IntType.card_eq]
  exact m.readLE_lt _ _

/-- **A cell reads as what its bytes are in its type.** -/
theorem get_eq_decoding (c : Cell) (m : Bytes) :
    c.get m = c.type.decoding (m.window c.offset c.type.width.bytes) := by
  rw [get, IntType.decode_eq (c.readLE_lt_card m), Bytes.readLE_eq_ofDigits]
  rfl

/-- **The value that a cell reads as has the bytes of the cell.** -/
theorem getElem?_encoding_get (c : Cell) (m : Bytes) {k : Nat} (hk : k < c.type.width.bytes) :
    (c.type.encoding (c.get m))[k]? = some (m.get (c.offset + k)) := by
  rw [IntType.getElem?_encoding, if_pos hk, get, IntType.encode_decode (c.readLE_lt_card m),
    m.ofNat_readLE_div _ hk]

/-- What a cell is set to is read back. -/
theorem get_set_self (c : Cell) {v : Int} (hv : c.type.Holds v) (m : Bytes) :
    c.get (c.set v m) = v := by
  have hlt := c.type.encode_lt v
  rw [IntType.card_eq] at hlt
  rw [get, set, Bytes.readLE_writeLE, Nat.mod_eq_of_lt hlt, IntType.decode_encode hv]

/-- Setting a cell to the value that it has changes no byte. -/
theorem byte_set_get (c : Cell) (m : Bytes) (j : Nat) : (c.set (c.get m) m).get j = m.get j := by
  rw [byte_set, byteAt?_set]
  split_ifs with h
  · have hj : c.offset + (j - c.offset) = j := by omega
    rw [get, IntType.encode_decode (c.readLE_lt_card m), m.ofNat_readLE_div _ (by omega), hj,
      Option.getD_some]
  · rfl

/-- **A cell sees what is put into another one**: the bytes of its value are those of the other
value where the two overlap, and as they were elsewhere. -/
theorem getElem?_encoding_get_set (c d : Cell) (v : Int) (m : Bytes) {k : Nat}
    (hk : k < d.type.width.bytes) :
    (d.type.encoding (d.get (c.set v m)))[k]? =
      (Access.byteAt? (d.offset + k) (.set c v)).or (d.type.encoding (d.get m))[k]? := by
  rw [getElem?_encoding_get d _ hk, getElem?_encoding_get d _ hk, byte_set]
  cases Access.byteAt? (d.offset + k) (.set c v) <;> rfl

/-- Cells that are apart can be set in either order, since no byte is put into both. -/
theorem byte_set_comm {c d : Cell} (h : c.Apart d) (v w : Int) (m : Bytes) (j : Nat) :
    (d.set w (c.set v m)).get j = (c.set v (d.set w m)).get j := by
  rw [byte_set, byte_set, byte_set, byte_set]
  have hnone : Access.byteAt? j (.set c v) = none ∨ Access.byteAt? j (.set d w) = none := by
    rw [byteAt?_set, byteAt?_set, ite_eq_right_iff, ite_eq_right_iff]
    simp only [reduceCtorEq, imp_false]
    rcases h with h | h
    · omega
    · omega
  rcases hnone with hnone | hnone
  · rw [hnone]
    rfl
  · rw [hnone]
    rfl

end Cell

/-! ## 4. Buffers -/

namespace Buffer

@[simp] theorem length_toList (b : Buffer) : b.toList.length = b.size := b.memory.length_window 0 _

theorem getElem?_toList (b : Buffer) {j : Nat} (hj : j < b.size) :
    b.toList[j]? = some (b.memory.get j) := by
  rw [toList, Bytes.getElem?_window, if_pos hj, Nat.zero_add]

/-- Buffers of one size with the same bytes look the same. -/
theorem toList_congr {b b' : Buffer} (hsize : b.size = b'.size)
    (h : ∀ j, b.memory.get j = b'.memory.get j) : b.toList = b'.toList := by
  refine List.ext_getElem? fun j => ?_
  simp only [toList, Bytes.getElem?_window, hsize, h]

@[simp] theorem toList_ofList (bytes : List UInt8) : (ofList bytes).toList = bytes := by
  refine List.ext_getElem? fun j => ?_
  by_cases hj : j < bytes.length
  · rw [getElem?_toList (ofList bytes) hj, ofList, Bytes.get_store]
    simp [hj]
  · rw [List.getElem?_eq_none (by simpa [ofList] using hj), List.getElem?_eq_none (by omega)]

/-- The bytes of a cell that fits are a piece of the buffer. -/
theorem window_eq_of_fits {b : Buffer} {c : Cell} (h : b.Fits c) :
    b.memory.window c.offset c.type.width.bytes =
      (b.toList.drop c.offset).take c.type.width.bytes := by
  have hin := h.2
  refine List.ext_getElem? fun k => ?_
  rw [Bytes.getElem?_window, List.getElem?_take, List.getElem?_drop]
  by_cases hk : k < c.type.width.bytes
  · rw [if_pos hk, if_pos hk, getElem?_toList b (by omega)]
  · rw [if_neg hk, if_neg hk]

@[simp] theorem size_access (a : Access) (b : Buffer) : (b.access a).size = b.size := by
  cases a <;> rfl

theorem byte_access (a : Access) (b : Buffer) (j : Nat) :
    (b.access a).memory.get j = (a.byteAt? j).getD (b.memory.get j) := by
  cases a with
  | get c => rfl
  | set c v => exact c.byte_set v b.memory j

/-- The buffer after some accesses. -/
def after (accesses : List Access) (b : Buffer) : Buffer :=
  accesses.foldl (fun b a => b.access a) b

theorem after_concat (accesses : List Access) (a : Access) (b : Buffer) :
    b.after (accesses ++ [a]) = (b.after accesses).access a := by
  rw [after, List.foldl_append]
  rfl

theorem size_after (accesses : List Access) (b : Buffer) : (b.after accesses).size = b.size := by
  induction accesses generalizing b with
  | nil => rfl
  | cons a rest ih => rw [after, List.foldl_cons, ← after, ih, size_access]

/-- **A byte is what the last access that covered it put there**, or what it was at first. -/
theorem byte_after (accesses : List Access) (b : Buffer) (j : Nat) :
    (b.after accesses).memory.get j =
      (accesses.reverse.findSome? (Access.byteAt? j)).getD (b.memory.get j) := by
  induction accesses using List.reverseRecOn with
  | nil => rfl
  | append_singleton accesses a ih =>
    rw [after_concat, byte_access, ih, List.reverse_concat, List.findSome?_cons]
    cases a.byteAt? j <;> rfl

/-- What a run shows for each access is the buffer after it, and the value of its cell there. -/
theorem getElem?_run (accesses : List Access) (b : Buffer) (n : Nat) :
    (run accesses b)[n]? = accesses[n]?.map fun a =>
      let later := b.after (accesses.take (n + 1))
      (a.cell.get later.memory, later) := by
  induction accesses generalizing b n with
  | nil => rfl
  | cons a rest ih =>
    cases n with
    | zero => rfl
    | succ n => exact ih (b.access a) n

end Buffer

open Buffer

/-- **Cells of all types agree byte by byte.**  In a block of any bytes, let cells be read and set, in
any order, each inside the block and aligned to its width.  After each access the block has its
length, and each byte of it is that of the last value whose cell covers it, or what it was at first.
The value that an access shows is what the bytes of its cell are then.

So in every buffer, what a cell is set to is read back; setting a cell to the value it has changes
nothing; the bytes of a cell's value are those of what was put into another cell where the two
overlap, and the same as before elsewhere; and cells that are apart can be set in either order. -/
theorem cells_agree_bytewise (bytes : List UInt8) (accesses : List Access)
    (hadmits : ∀ a ∈ accesses, (ofList bytes).Admits a) :
    (∀ n a, accesses[n]? = some a →
      ∃ value b, (run accesses (ofList bytes))[n]? = some (value, b) ∧
        b.toList.length = bytes.length ∧
        (∀ j < bytes.length, b.toList[j]? =
          ((accesses.take (n + 1)).reverse.findSome? (Access.byteAt? j)).or bytes[j]?) ∧
        value = a.cell.type.decoding
          ((b.toList.drop a.cell.offset).take a.cell.type.width.bytes)) ∧
    (∀ (b : Buffer) (c : Cell) (v : Int), c.type.Holds v →
      c.get (b.access (.set c v)).memory = v) ∧
    (∀ (b : Buffer) (c : Cell), c.type.Holds (c.get b.memory) ∧
      (b.access (.set c (c.get b.memory))).toList = b.toList) ∧
    (∀ (b : Buffer) (c d : Cell) (v : Int), ∀ k < d.type.width.bytes,
      (d.type.encoding (d.get (b.access (.set c v)).memory))[k]? =
        (Access.byteAt? (d.offset + k) (.set c v)).or (d.type.encoding (d.get b.memory))[k]?) ∧
    (∀ (b : Buffer) (c d : Cell) (v w : Int), c.Apart d →
      ((b.access (.set c v)).access (.set d w)).toList =
        ((b.access (.set d w)).access (.set c v)).toList) := by
  refine ⟨fun n a ha => ?_, fun b c v hv => c.get_set_self hv b.memory, fun b c => ⟨?_, ?_⟩,
    fun b c d v k hk => c.getElem?_encoding_get_set d v b.memory hk, fun b c d v w h => ?_⟩
  · have hsize := size_after (accesses.take (n + 1)) (ofList bytes)
    refine ⟨_, _, by rw [getElem?_run, ha, Option.map_some], ?_, fun j hj => ?_, ?_⟩
    · rw [length_toList, hsize]
      rfl
    · have hfirst := getElem?_toList (ofList bytes) hj
      rw [toList_ofList] at hfirst
      rw [getElem?_toList _ (by rwa [hsize]), byte_after, hfirst]
      cases (accesses.take (n + 1)).reverse.findSome? (Access.byteAt? j) <;> rfl
    · have hmem : a ∈ accesses := List.mem_of_getElem? ha
      have hfits : (ofList bytes).Fits a.cell := by
        cases a with
        | get c => exact hadmits _ hmem
        | set c v => exact (hadmits _ hmem).1
      have hfits' : ((ofList bytes).after (accesses.take (n + 1))).Fits a.cell :=
        ⟨hfits.1, hsize ▸ hfits.2⟩
      rw [Cell.get_eq_decoding, window_eq_of_fits hfits']
  · exact IntType.holds_decode (c.readLE_lt_card b.memory)
  · exact toList_congr rfl (c.byte_set_get b.memory)
  · exact toList_congr rfl (Cell.byte_set_comm h v w b.memory)

/-- A signed word, an unsigned half word in it and a signed byte in front of that, seen as one
signed number. -/
theorem cells_agree_bytewise_mixed :
    let bytes : List UInt8 := [1, 2, 3, 4, 5, 6, 7, 8]
    let accesses : List Access := [.set ⟨⟨.word, true⟩, 0⟩ (-2), .set ⟨⟨.half, false⟩, 2⟩ 0x8180,
      .set ⟨⟨.byte, true⟩, 1⟩ (-128), .get ⟨⟨.word, true⟩, 0⟩]
    ∃ value b, (run accesses (ofList bytes))[3]? = some (value, b) ∧
      b.toList = [0xfe, 0x80, 0x80, 0x81, 5, 6, 7, 8] ∧ value = -0x7e7f7f02 := by
  intro bytes accesses
  obtain ⟨hrun, -⟩ := cells_agree_bytewise bytes accesses (by decide)
  obtain ⟨value, b, hshown, hlength, hbytes, hvalue⟩ := hrun 3 _ rfl
  have hlist : b.toList = [0xfe, 0x80, 0x80, 0x81, 5, 6, 7, 8] := by
    refine List.ext_getElem? fun j => ?_
    by_cases hj : j < bytes.length
    · rw [hbytes j hj]
      revert j
      decide
    · rw [List.getElem?_eq_none (by omega), List.getElem?_eq_none (by simpa [bytes] using hj)]
  refine ⟨value, b, hshown, hlist, ?_⟩
  rw [hvalue, hlist]
  decide

end StageZero
