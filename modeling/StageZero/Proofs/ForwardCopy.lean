/-
# The copy, round by round

`copyWords` works from the lowest word up, and each round reads its word just before it writes it.
So a round may read what an earlier round wrote.  `RamImage` tells what a copy leaves behind where
that does not happen; this file follows the rounds themselves, whatever they run into.

* **The trace.**  A copy gets through a number of rounds, and each of them logs a read and the write
  of the word that was there at that moment.  The first round whose word is missing logs its read,
  and is the end of the copy (`copyWords_rounds`).  The clearing that follows a whole copy logs its
  writes, and can not fail (`clearWords_eq`).
* **Overlap.**  If the target begins inside of the source, `d` words above its first, the copy
  runs into its own words.  Only the first `d` words of the source are ever read as they were, so
  these are all that must be there (`readable_overlapping_iff`), and the target repeats them over
  and over (`Carried.periodic`).

What a copy carried over is given as the list of its words (`Carried`).  The memory that round `i`
finds is the one from before the copy with the first `i` of these words in place.
-/
import StageZero.Proofs.RamImage

namespace StageZero

open Address (nthWord_addWords_one)
open Region (wordsFrom mem_wordsFrom)

/-! ## 1. Loops, seen from their last round

The loops are written first round first.  Their invariants go by the rounds that are done, so each
loop is taken apart at its last round here, on any machine. -/

section Rounds

variable {σ : Type} [Machine σ]

/-- One round of a copy. -/
def copyWord (source target : Address) : Proc σ Unit := do
  let w ← readWord source
  writeWord target w

theorem copyWords_first (s t : Address) (n : Nat) :
    (copyWords s t (n + 1) : Proc σ Unit) =
      (copyWord s t >>= fun _ => copyWords (s.addWords 1) (t.addWords 1) n) := by
  funext m
  simp only [copyWords, copyWord, Proc.bind_apply, Run.andThen_assoc]

theorem copyWords_last (s t : Address) (n : Nat) (m : σ) :
    copyWords s t (n + 1) m =
      Run.andThen (copyWords s t n m) fun _ => copyWord (s.nthWord n) (t.nthWord n) := by
  induction n generalizing s t m with
  | zero =>
    rw [copyWords_first, Proc.bind_apply, Address.nthWord_zero, Address.nthWord_zero]
    exact Run.andThen_pure _
  | succ n ih =>
    have hrest : (copyWords (s.addWords 1) (t.addWords 1) (n + 1) : Proc σ Unit) =
        (copyWords (s.addWords 1) (t.addWords 1) n >>= fun _ =>
          copyWord (s.nthWord (n + 1)) (t.nthWord (n + 1))) := by
      funext m
      rw [ih, nthWord_addWords_one, nthWord_addWords_one, Proc.bind_apply]
    rw [copyWords_first, Proc.bind_apply, hrest, ← Run.andThen_assoc, copyWords_first,
      Proc.bind_apply]

theorem clearWords_last (t : Address) (n : Nat) (m : σ) :
    clearWords t (n + 1) m =
      Run.andThen (clearWords t n m) fun _ => writeWord (t.nthWord n) 0 := by
  induction n generalizing t m with
  | zero =>
    rw [Address.nthWord_zero]
    exact Run.andThen_pure _
  | succ n ih =>
    have hrest : (clearWords (t.addWords 1) (n + 1) : Proc σ Unit) =
        (clearWords (t.addWords 1) n >>= fun _ => writeWord (t.nthWord (n + 1)) 0) := by
      funext m
      rw [ih, nthWord_addWords_one, Proc.bind_apply]
    rw [clearWords, Proc.bind_apply, hrest, ← Run.andThen_assoc, clearWords, Proc.bind_apply]

end Rounds

theorem placeWords_concat {σ : Type} [Rig σ] (t : Address) (ws : List Word) (w : Word) (s : σ) :
    placeWords t (ws ++ [w]) s = Rig.place (t.nthWord ws.length) w (placeWords t ws s) := by
  induction ws generalizing t s with
  | nil => rw [List.length_nil, Address.nthWord_zero]; rfl
  | cons x ws ih =>
    rw [List.cons_append, placeWords, ih, nthWord_addWords_one, List.length_cons, placeWords]

namespace Bench

/-! ## 2. Words in a row -/

theorem memory_place (a x : Address) (w : Word) (b : Bench) :
    (b.place a w).memory[x]? = if x = a then some w else b.memory[x]? := memory_store a x w b

theorem memory_placeWords_frame {t a : Address} {ws : List Word} {b : Bench}
    (ha : a ∉ wordsFrom t ws.length) : (placeWords t ws b).memory[a]? = b.memory[a]? := by
  induction ws generalizing t b with
  | nil => rfl
  | cons w ws ih =>
    rw [List.length_cons, wordsFrom, List.mem_cons, not_or] at ha
    rw [placeWords, ih ha.2]
    exact (memory_place t a w b).trans (if_neg ha.1)

/-- Words in a row do not get into each other's way, as there are fewer than addresses. -/
theorem memory_placeWords {t : Address} {ws : List Word} {b : Bench} {i : Nat}
    (hlen : ws.length ≤ 1073741824) (hi : i < ws.length) :
    (placeWords t ws b).memory[t.nthWord i]? = ws[i]? := by
  induction ws generalizing t b i with
  | nil => exact absurd hi (Nat.not_lt_zero i)
  | cons w ws ih =>
    rw [List.length_cons] at hlen hi
    rw [placeWords]
    cases i with
    | zero =>
      have hfirst : t ∉ wordsFrom (t.addWords 1) ws.length := by
        intro hmem
        obtain ⟨j, hj, heq⟩ := mem_wordsFrom.mp hmem
        have hval := congrArg (fun a : Address => a.val.toNat) heq
        have ht := UInt32.toNat_lt t.val
        simp only [nthWord_addWords_one, Address.toNat_nthWord] at hval
        omega
      rw [Address.nthWord_zero, memory_placeWords_frame hfirst]
      exact (memory_place t t w b).trans (if_pos rfl)
    | succ i =>
      rw [← nthWord_addWords_one, ih (by omega) (by omega), List.getElem?_cons_succ]

/-- The bench after words were written in a row, with these events. -/
def wrote (t : Address) (ws : List Word) (events : List Event) (b : Bench) : Bench :=
  { b with
    memory := (placeWords t ws b).memory
    log := b.log ++ events.toArray
    writes := b.writes ++ (ws.zipIdx.map fun (w, i) => (t.nthWord i, w)).toArray }

theorem wrote_nil (t : Address) (b : Bench) : b.wrote t [] [] = b := by
  simp [wrote, placeWords]

theorem record_wrote (t : Address) (ws : List Word) (events : List Event) (e : Event)
    (b : Bench) : (b.wrote t ws events).record e = b.wrote t ws (events ++ [e]) := by
  simp [wrote, record]

theorem store_wrote (t : Address) (ws : List Word) (events : List Event) (w : Word) (b : Bench) :
    (b.wrote t ws events).store (t.nthWord ws.length) w =
      b.wrote t (ws ++ [w]) (events ++ [.write (t.nthWord ws.length) w]) := by
  simp [wrote, store, placeWords_concat, List.zipIdx_append, Rig.place, place]

theorem size_writes_wrote (t : Address) (ws : List Word) (events : List Event) (b : Bench) :
    (b.wrote t ws events).writes.size = b.writes.size + ws.length := by
  simp [wrote]

/-! ## 3. The trace of a copy -/

/-- A read and a write for each word that a copy carried over. -/
def copyEvents (s t : Address) (ws : List Word) : List Event :=
  ws.zipIdx.flatMap fun (w, i) => [.read (s.nthWord i), .write (t.nthWord i) w]

/-- A write for each of some words in a row. -/
def writeEvents (t : Address) (ws : List Word) : List Event :=
  ws.zipIdx.map fun (w, i) => .write (t.nthWord i) w

theorem copyEvents_concat (s t : Address) (ws : List Word) (w : Word) :
    copyEvents s t (ws ++ [w]) = copyEvents s t ws ++
      [.read (s.nthWord ws.length)] ++ [.write (t.nthWord ws.length) w] := by
  simp [copyEvents, List.zipIdx_append]

theorem writeEvents_concat (t : Address) (ws : List Word) (w : Word) :
    writeEvents t (ws ++ [w]) = writeEvents t ws ++ [.write (t.nthWord ws.length) w] := by
  simp [writeEvents, List.zipIdx_append]

/-- **The words that a copy of `n` words carries over**, one for each round.  Round `i` finds the
words of the rounds before it in place, and carries over what it finds at its own source word.  If
there are fewer than `n` words, the next round finds nothing. -/
structure Carried (b : Bench) (s t : Address) (n : Nat) (ws : List Word) : Prop where
  length_le : ws.length ≤ n
  found : ∀ i w, ws[i]? = some w →
    (placeWords t (ws.take i) b).memory[s.nthWord i]? = some w
  missing : ws.length < n → (placeWords t ws b).memory[s.nthWord ws.length]? = none

theorem Carried.nil (b : Bench) (s t : Address) : b.Carried s t 0 [] where
  length_le := Nat.le_refl 0
  found i w hw := by simp at hw
  missing h := absurd h (Nat.lt_irrefl 0)

/-- A copy that finds nothing carries over nothing more, however long it is. -/
theorem Carried.stops {b : Bench} {s t : Address} {n : Nat} {ws : List Word}
    (h : b.Carried s t n ws)
    (hnone : (placeWords t ws b).memory[s.nthWord ws.length]? = none) :
    b.Carried s t (n + 1) ws where
  length_le := Nat.le_succ_of_le h.length_le
  found := h.found
  missing _ := hnone

/-- One more round finds a word. -/
theorem Carried.concat {b : Bench} {s t : Address} {ws : List Word} {w : Word}
    (h : b.Carried s t ws.length ws)
    (hsome : (placeWords t ws b).memory[s.nthWord ws.length]? = some w) :
    b.Carried s t (ws.length + 1) (ws ++ [w]) where
  length_le := by simp
  found i x hx := by
    rcases Nat.lt_trichotomy i ws.length with hi | rfl | hi
    · rw [List.getElem?_append_left hi] at hx
      rw [List.take_append_of_le_length (Nat.le_of_lt hi)]
      exact h.found i x hx
    · rw [List.getElem?_concat_length] at hx
      rw [List.take_left, hsome, hx]
    · rw [List.getElem?_eq_none (by simp; omega)] at hx
      cases hx
  missing hlt := absurd hlt (by simp)

theorem copyWord_present {s t : Address} {b : Bench} {w : Word} (h : b.memory[s]? = some w) :
    copyWord s t b = (.returned (), (b.record (.read s)).store t w) := by
  simp only [copyWord, Proc.bind_apply, readWord_present h, Run.andThen_returned, writeWord_eq]

theorem copyWord_absent {s t : Address} {b : Bench} (h : b.memory[s]? = none) :
    copyWord s t b = (.faulted (.unmapped s), b.record (.read s)) := by
  simp only [copyWord, Proc.bind_apply, readWord_absent h, Run.andThen_faulted]

/-- How a copy of `n` words ends that carried over these words, and the bench that it leaves. -/
def copyRun (s t : Address) (n : Nat) (ws : List Word) (b : Bench) : Run Bench Unit :=
  if ws.length < n then
    (.faulted (.unmapped (s.nthWord ws.length)),
      b.wrote t ws (copyEvents s t ws ++ [.read (s.nthWord ws.length)]))
  else (.returned (), b.wrote t ws (copyEvents s t ws))

/-- **A copy, round by round**: it carries over words until it is done, or until one is missing. -/
theorem copyWords_rounds (s t : Address) (n : Nat) (b : Bench) :
    ∃ ws, b.Carried s t n ws ∧ copyWords s t n b = copyRun s t n ws b := by
  induction n with
  | zero =>
    refine ⟨[], .nil b s t, ?_⟩
    exact congrArg (Prod.mk _) (wrote_nil t b).symm
  | succ n ih =>
    obtain ⟨ws, hws, hrun⟩ := ih
    rw [copyWords_last, hrun]
    rcases Nat.lt_or_eq_of_le hws.length_le with hlt | rfl
    · refine ⟨ws, hws.stops (hws.missing hlt), ?_⟩
      simp only [copyRun, if_pos hlt, if_pos (Nat.lt_succ_of_lt hlt), Run.andThen_faulted]
    · simp only [copyRun, Nat.lt_irrefl, if_false, Run.andThen_returned]
      cases hword : (b.wrote t ws (copyEvents s t ws)).memory[s.nthWord ws.length]? with
      | some w =>
        refine ⟨ws ++ [w], hws.concat hword, ?_⟩
        rw [copyWord_present hword, record_wrote, store_wrote, if_neg (by simp), copyEvents_concat]
      | none =>
        refine ⟨ws, hws.stops hword, ?_⟩
        rw [copyWord_absent hword, record_wrote, if_pos (Nat.lt_succ_self _)]

/-- **Clearing writes its zeros**, one after the other. -/
theorem clearWords_eq (t : Address) (n : Nat) (b : Bench) :
    clearWords t n b =
      (.returned (), b.wrote t (List.replicate n 0) (writeEvents t (List.replicate n 0))) := by
  induction n with
  | zero => exact congrArg (Prod.mk _) (wrote_nil t b).symm
  | succ n ih =>
    rw [clearWords_last, ih, Run.andThen_returned, writeWord_eq, List.replicate_succ',
      writeEvents_concat, ← store_wrote, List.length_replicate]

/-! ## 4. A copy that runs into its own words -/

/-- **A copy into its own source reads nothing but the first words of it** that come before its
target; all others are there once their turn comes. -/
theorem readable_overlapping_iff {b : Bench} {s : Address} {d n : Nat} (hd : 0 < d) (hdn : d ≤ n)
    (hend : s.val.toNat + 4 * (d + n) ≤ 4294967296) :
    b.Readable s (s.nthWord d) n ↔ ∀ i < d, (b.memory[s.nthWord i]?).isSome := by
  constructor
  · intro h i hi
    rcases h i (by omega) with hthere | ⟨j, hj, heq⟩
    · exact hthere
    · rw [Address.nthWord_nthWord] at heq
      have hij := Address.nthWord_inj (by omega) (by omega) heq
      omega
  · intro h i hi
    by_cases hlow : i < d
    · exact Or.inl (h i hlow)
    · exact Or.inr ⟨i - d, by omega, by rw [Address.nthWord_nthWord, Nat.add_sub_cancel' (by omega)]⟩

/-- **What it carries over repeats these words.**  The induction is on all rounds before: round `i`
finds a word that nobody touched if `i < d`, and what round `i - d` carried over otherwise. -/
theorem Carried.periodic {b : Bench} {s : Address} {d n : Nat} {ws : List Word}
    (h : b.Carried s (s.nthWord d) n ws) (hd : 0 < d)
    (hend : s.val.toNat + 4 * (d + n) ≤ 4294967296) {i : Nat} (hi : i < ws.length) :
    ws[i]? = b.memory[s.nthWord (i % d)]? := by
  induction i using Nat.strongRecOn with
  | ind i ih =>
    have hlen := h.length_le
    have hfound := h.found i ws[i] (List.getElem?_eq_getElem hi)
    have htake : (ws.take i).length = i := by rw [List.length_take]; omega
    rw [List.getElem?_eq_getElem hi, ← hfound]
    by_cases hlow : i < d
    · rw [Nat.mod_eq_of_lt hlow]
      apply memory_placeWords_frame
      intro hmem
      obtain ⟨j, hj, heq⟩ := mem_wordsFrom.mp hmem
      rw [htake] at hj
      rw [Address.nthWord_nthWord] at heq
      have hij := Address.nthWord_inj (by omega) (by omega) heq
      omega
    · have hback : s.nthWord i = (s.nthWord d).nthWord (i - d) := by
        rw [Address.nthWord_nthWord, Nat.add_sub_cancel' (by omega)]
      rw [hback, memory_placeWords (by omega) (by omega), List.getElem?_take_of_lt (by omega),
        ih (i - d) (by omega) (by omega), ← Nat.mod_eq_sub_mod (by omega)]

end Bench

/-! ## 5. Loading data, and preparing RAM -/

open Bench

/-- **What preparing RAM asks of a bench, in order.**  The copy carries over words until it is done
or one is missing, with a read and a write for each.  If a word is missing the read of it is the
last event, and the end: the words before it are in place, and nothing is cleared.  Otherwise the
zeros are written, and that is all.  Nothing but memory and the records of it ever changes. -/
theorem prepareRam_trace (l : Layout) (b : Bench) (hdata : l.data.Ordered) (hbss : l.bss.Ordered)
    (hfits : l.SourceFits) :
    ∃ ws, b.Carried l.dataLoad l.data.start l.data.wordCount ws ∧
      (ws.length < l.data.wordCount →
        let missing := l.dataLoad.nthWord ws.length
        let spent := b.wrote l.data.start ws
          (copyEvents l.dataLoad l.data.start ws ++ [.read missing])
        loadData l b = (.faulted (.unmapped missing), spent) ∧
        prepareRam l b = (.faulted (.unmapped missing), spent)) ∧
      (ws.length = l.data.wordCount →
        let zeros := List.replicate l.bss.wordCount 0
        let loaded := b.wrote l.data.start ws (copyEvents l.dataLoad l.data.start ws)
        let ready := loaded.wrote l.bss.start zeros (writeEvents l.bss.start zeros)
        loadData l b = (.returned (), loaded) ∧
        prepareRam l b = (.returned (), ready) ∧
        ready.writes.size = b.writes.size + l.data.wordCount + l.bss.wordCount) ∧
      (prepareRam l b).2.vectorBase = b.vectorBase ∧
      (prepareRam l b).2.masked = b.masked ∧
      (prepareRam l b).2.stackPointer = b.stackPointer ∧
      (prepareRam l b).2.entry = b.entry ∧
      (prepareRam l b).2.marks = b.marks := by
  obtain ⟨ws, hws, hcopy⟩ := copyWords_rounds l.dataLoad l.data.start l.data.wordCount b
  rw [← loadData_of_fits hdata hfits] at hcopy
  refine ⟨ws, hws, ?_⟩
  rcases Nat.lt_or_eq_of_le hws.length_le with hlt | heq
  · rw [copyRun, if_pos hlt] at hcopy
    have hram := prepareRam_of_load_faults hcopy
    refine ⟨fun _ => ⟨hcopy, hram⟩, fun h => absurd h (Nat.ne_of_lt hlt), ?_⟩
    rw [hram]
    exact ⟨rfl, rfl, rfl, rfl, rfl⟩
  · rw [copyRun, if_neg (by omega)] at hcopy
    have hram := prepareRam_of_loads hcopy
    rw [clearRegion_of_ordered hbss, clearWords_eq] at hram
    refine ⟨fun h => absurd heq (Nat.ne_of_lt h), fun _ => ⟨hcopy, hram, ?_⟩, ?_⟩
    · rw [size_writes_wrote, size_writes_wrote, heq, List.length_replicate]
    · rw [hram]
      exact ⟨rfl, rfl, rfl, rfl, rfl⟩

/-- Three words of data of which the last can not be read: two are in place, and nothing is
cleared. -/
theorem prepareRam_trace_cut_short :
    let l : Layout :=
      { stackTop := ⟨0x20010000⟩
        data := ⟨⟨0x20000000⟩, ⟨0x2000000c⟩⟩
        dataLoad := ⟨0x08001000⟩
        bss := ⟨⟨0x2000000c⟩, ⟨0x20000014⟩⟩ }
    let b := placeWords l.dataLoad [7, 9] Bench.empty
    ∃ ws : List Word, ws.length = 2 ∧
      prepareRam l b = (.faulted (.unmapped ⟨0x08001008⟩), b.wrote l.data.start ws
        (copyEvents l.dataLoad l.data.start ws ++ [.read ⟨0x08001008⟩])) ∧
      (prepareRam l b).2.writes.toList = [(⟨0x20000000⟩, 7), (⟨0x20000004⟩, 9)] ∧
      (prepareRam l b).2.log.toList =
        [.read ⟨0x08001000⟩, .write ⟨0x20000000⟩ 7, .read ⟨0x08001004⟩, .write ⟨0x20000004⟩ 9,
          .read ⟨0x08001008⟩] := by
  intro l b
  obtain ⟨ws, hws, hshort, hwhole, -⟩ :=
    prepareRam_trace l b (by decide) (by decide) (by decide)
  have hfault : (prepareRam l b).1 = .faulted (.unmapped (l.dataLoad.nthWord 2)) := by decide
  rcases Nat.lt_or_eq_of_le hws.length_le with hlt | heq
  · obtain ⟨-, hram⟩ := hshort hlt
    have hlen : ws.length = 2 := by
      rw [hram] at hfault
      have hcount : l.data.wordCount = 3 := by decide
      have haddr := Fault.unmapped.inj (Outcome.faulted.inj hfault)
      have hload : l.dataLoad.val.toNat = 134221824 := rfl
      exact Address.nthWord_inj (by omega) (by omega) haddr
    rw [hlen] at hram
    exact ⟨ws, hlen, hram, by decide, by decide⟩
  · obtain ⟨-, hram, -⟩ := hwhole heq
    rw [hram] at hfault
    cases hfault

/-- **Loading data from below into its own source.**  The data begins `d` words above the start of
its source, and inside of it.  Loading returns exactly if the first `d` source words are there, and
leaves them repeated all over the data region, with all other words as they were. -/
theorem loadData_overlapping (l : Layout) (b : Bench) (d : Nat) (hdata : l.data.Ordered)
    (hfits : l.SourceFits) (hd : 0 < d) (hdn : d < l.data.wordCount)
    (hstart : l.data.start = l.dataLoad.nthWord d) :
    ((∃ loaded, loadData l b = (.returned (), loaded)) ↔
        ∀ i < d, (b.memory[l.dataLoad.nthWord i]?).isSome) ∧
      ∀ loaded, loadData l b = (.returned (), loaded) →
        (∀ i < l.data.wordCount,
          loaded.memory[l.data.start.nthWord i]? = b.memory[l.dataLoad.nthWord (i % d)]?) ∧
        ∀ a, ¬ l.data.HasWord a → loaded.memory[a]? = b.memory[a]? := by
  have hcount := l.data.wordCount_lt
  have hend : l.dataLoad.val.toNat + 4 * (d + l.data.wordCount) ≤ 4294967296 := by
    have hcounted := Region.wordCount_of_ordered hdata
    have hstop := UInt32.toNat_lt l.data.stop.val
    have hbelow : l.dataLoad.val.toNat + 4 * d < 4294967296 := by
      unfold Layout.SourceFits at hfits
      omega
    rw [hstart, Address.toNat_nthWord_of_lt hbelow] at hcounted
    omega
  rw [loadData_of_fits hdata hfits]
  refine ⟨?_, fun loaded hloaded => ⟨fun i hi => ?_, fun a ha => ?_⟩⟩
  · rw [copyWords_returns_iff, hstart]
    exact readable_overlapping_iff hd (Nat.le_of_lt hdn) hend
  · obtain ⟨ws, hws, hcopy⟩ := copyWords_rounds l.dataLoad l.data.start l.data.wordCount b
    rw [hloaded, copyRun] at hcopy
    split at hcopy
    · cases hcopy
    · rename_i hwhole
      have hlen := hws.length_le
      cases hcopy
      have hword : (placeWords l.data.start ws b).memory[l.data.start.nthWord i]? = ws[i]? :=
        memory_placeWords (by omega) (by omega)
      rw [hstart] at hws
      exact hword.trans (hws.periodic hd hend (by omega))
  · have hframe := copyWords_frame (s := l.dataLoad) (b := b)
      fun hmem => ha ((Region.hasWord_iff_mem hdata a).mpr hmem)
    rwa [hloaded] at hframe

/-- Two words, repeated over five although no other source word is there. -/
theorem loadData_overlapping_two :
    let l : Layout :=
      { stackTop := ⟨0x20010000⟩
        data := ⟨⟨0x20000008⟩, ⟨0x2000001c⟩⟩
        dataLoad := ⟨0x20000000⟩
        bss := ⟨⟨0x20000020⟩, ⟨0x20000020⟩⟩ }
    let b := placeWords l.dataLoad [1, 2] Bench.empty
    ∃ loaded, loadData l b = (.returned (), loaded) ∧
      loaded.memory[l.data.start.nthWord 1]? = some 2 ∧
      loaded.memory[l.data.start.nthWord 4]? = some 1 ∧
      loaded.memory[l.data.stop]? = none := by
  intro l b
  obtain ⟨hreturns, hloads⟩ := loadData_overlapping l b 2 (by decide) (by decide) (by decide)
    (by decide) (by decide)
  obtain ⟨loaded, hloaded⟩ := hreturns.mpr (by decide)
  obtain ⟨hword, hframe⟩ := hloads loaded hloaded
  refine ⟨loaded, hloaded, (hword 1 (by decide)).trans (by decide),
    (hword 4 (by decide)).trans (by decide), (hframe _ (by decide)).trans (by decide)⟩

end StageZero
