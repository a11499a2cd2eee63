/-
# The log tells everything

A bench keeps its registers and its list of written words beside its log, and nothing but the code
of its operations ties the two together.  This file proves that they never come apart: whatever was
done to a bench since power-on, all but its memory can be told from its log (`Accounted`), and its
memory can be told from what it was at any earlier moment and the log since then, as long as no
words were placed from outside in between (`Overrides`).

An operation of a machine is one event, and does to a bench what that event says.  `Noted` says it
once for all events.  What an event keeps, every operation of the machine keeps, and so does every
procedure and every script (`KeptByEvents`).  Faults need no care of their own: a procedure that
faults half-way is one with fewer events.
-/
import StageZero.Proofs.Preservation

namespace StageZero

/-! ## 1. What events tell -/

namespace Event

/-- The word that an event writes, and where. -/
def write? : Event → Option (Address × Word)
  | .write a w => some (a, w)
  | _ => none

/-- The word that an event writes to an address. -/
def wordAt? (a : Address) : Event → Option Word
  | .write x w => if x = a then some w else none
  | _ => none

/-- The vector table that an event makes the current one. -/
def table? : Event → Option Address
  | .relocate table => some table
  | _ => none

/-- The stack pointer and the entry with which an event starts an image. -/
def start? : Event → Option (Word × Word)
  | .start stackPointer entry _ => some (stackPointer, entry)
  | _ => none

/-- How an event gives the machine away. -/
def ending? : Event → Option Ending
  | .start _ _ _ => some .started
  | .idle => some .idle
  | _ => none

/-- The last thing that the events of a log tell. -/
def last? {α : Type} (tell : Event → Option α) (log : List Event) : Option α :=
  (log.filterMap tell).getLast?

variable {α : Type} {tell : Event → Option α}

/-- Later events are asked first. -/
theorem last?_append (log later : List Event) :
    last? tell (log ++ later) = (last? tell later).or (last? tell log) := by
  rw [last?, List.filterMap_append, List.getLast?_append]
  rfl

@[simp] theorem last?_singleton (e : Event) : last? tell [e] = tell e := by
  cases h : tell e with
  | none => simp [last?, h]
  | some x => simp [last?, h]

end Event

/-! ## 2. What an event does to a bench -/

namespace Bench

/-- **The bench after an event is the bench before it with what the event tells taken down**: the
event is in the log, each register holds what the event put there or what it held before, and so
does memory.  An image is started with interrupts as they are. -/
structure Noted (e : Event) (b after : Bench) : Prop where
  log : after.log.toList = b.log.toList ++ [e]
  writes : after.writes.toList = b.writes.toList ++ e.write?.toList
  masked : after.masked = true ↔ b.masked = true ∨ e = .maskInterrupts
  vectorBase : after.vectorBase = e.table?.getD b.vectorBase
  stackPointer : after.stackPointer = (e.start?.map Prod.fst).or b.stackPointer
  entry : after.entry = (e.start?.map Prod.snd).or b.entry
  flag : ∀ sp entry masked, e = .start sp entry masked → masked = b.masked
  memory : ∀ a, after.memory[a]? = (e.wordAt? a).or b.memory[a]?

/-- An event that no register and no word of memory goes with. -/
theorem noted_record {e : Event} (b : Bench) (hwrite : e.write? = none)
    (hmask : e ≠ .maskInterrupts) (htable : e.table? = none) (hstart : e.start? = none)
    (hword : ∀ a, e.wordAt? a = none) : Noted e b (b.record e) where
  log := Array.toList_push
  writes := by simp [record, hwrite]
  masked := by simp [record, hmask]
  vectorBase := by simp [record, htable]
  stackPointer := by simp [record, hstart]
  entry := by simp [record, hstart]
  flag sp entry masked he := by
    rw [he] at hstart
    cases hstart
  memory a := by simp [record, hword]

theorem noted_read (a : Address) (b : Bench) : Noted (.read a) b (b.record (.read a)) :=
  noted_record b rfl (by simp) rfl rfl fun _ => rfl

theorem noted_write (a : Address) (w : Word) (b : Bench) :
    Noted (.write a w) b (writeWord a w b).2 where
  log := Array.toList_push
  writes := Array.toList_push
  masked := by simp [writeWord]
  vectorBase := rfl
  stackPointer := rfl
  entry := rfl
  flag _ _ _ he := by cases he
  memory x := by
    simp only [writeWord, Std.ExtTreeMap.getElem?_insert, Std.LawfulEqCmp.compare_eq_iff_eq,
      Event.wordAt?]
    by_cases h : a = x
    · simp [h]
    · simp [h]

theorem noted_mask (b : Bench) : Noted .maskInterrupts b (Machine.maskInterrupts b) where
  log := Array.toList_push
  writes := by simp [Machine.maskInterrupts, record, Event.write?]
  masked := by simp [Machine.maskInterrupts]
  vectorBase := rfl
  stackPointer := rfl
  entry := rfl
  flag _ _ _ he := by cases he
  memory _ := rfl

theorem noted_relocate (table : Address) (b : Bench) :
    Noted (.relocate table) b (Machine.relocateVectors table b) where
  log := Array.toList_push
  writes := by simp [Machine.relocateVectors, record, Event.write?]
  masked := by simp [Machine.relocateVectors, record]
  vectorBase := rfl
  stackPointer := rfl
  entry := rfl
  flag _ _ _ he := by cases he
  memory _ := rfl

theorem noted_launch (sp entry : Word) (b : Bench) :
    Noted (.start sp entry b.masked) b (Machine.launch sp entry b) where
  log := Array.toList_push
  writes := by simp [Machine.launch, record, Event.write?]
  masked := by simp [Machine.launch, record]
  vectorBase := rfl
  stackPointer := rfl
  entry := rfl
  flag _ _ _ he := by
    cases he
    rfl
  memory _ := rfl

theorem noted_sleep (b : Bench) : Noted .idle b (Machine.sleep b) :=
  noted_record b rfl (by simp) rfl rfl fun _ => rfl

/-! ## 3. What every event keeps -/

/-- A relation between earlier and later benches that every event keeps, told by how the event
gives the machine away, and that does not look at the marks. -/
structure KeptByEvents (R : Option Ending → Bench → Bench → Prop) : Prop where
  refl : ∀ b, R none b b
  trans : ∀ {d b c e}, R none b c → R d c e → R d b e
  noted : ∀ {e b after}, Noted e b after → R e.ending? b after
  mark : ∀ text b, R none b (mark text b)

/-- **What every event keeps, every script keeps** that places no words. -/
theorem KeptByEvents.keptByScript {R : Option Ending → Bench → Bench → Prop}
    (h : KeptByEvents R) : KeptByScript R where
  refl := h.refl
  trans := h.trans
  read a b := by
    cases hw : b.memory[a]? with
    | some w =>
      rw [readWord_present hw]
      exact h.noted (noted_read a b)
    | none =>
      rw [readWord_absent hw]
      exact h.noted (noted_read a b)
  write a w b := h.noted (noted_write a w b)
  mask b := h.noted (noted_mask b)
  relocate table b := h.noted (noted_relocate table b)
  launch sp entry b := h.noted (noted_launch sp entry b)
  sleep b := h.noted (noted_sleep b)
  mark := h.mark
  spin _ b := h.refl b
  salvage _ := h.refl _

/-! ## 4. Registers -/

/-- **All but the memory of a bench can be told from its log.**  Each start in the log was made with
interrupts masked exactly if they had been masked before it. -/
structure Accounted (b : Bench) : Prop where
  writes : b.writes.toList = b.log.toList.filterMap Event.write?
  masked : b.masked = true ↔ Event.maskInterrupts ∈ b.log.toList
  vectorBase : b.vectorBase = (Event.last? Event.table? b.log.toList).getD .zero
  stackPointer : b.stackPointer = (Event.last? Event.start? b.log.toList).map Prod.fst
  entry : b.entry = (Event.last? Event.start? b.log.toList).map Prod.snd
  starts : ∀ past sp entry masked later,
    b.log.toList = past ++ .start sp entry masked :: later →
    (masked = true ↔ Event.maskInterrupts ∈ past)

theorem accounted_empty : Accounted .empty where
  writes := rfl
  masked := by simp [empty]
  vectorBase := rfl
  stackPointer := rfl
  entry := rfl
  starts past sp entry masked later h := by
    have hnil : [] = past ++ .start sp entry masked :: later := h
    simp at hnil

/-- The log is all that is looked at. -/
theorem Accounted.of_place {b : Bench} (h : b.Accounted) (a : Address) (w : Word) :
    (b.place a w).Accounted :=
  ⟨h.writes, h.masked, h.vectorBase, h.stackPointer, h.entry, h.starts⟩

theorem Accounted.of_mark {b : Bench} (h : b.Accounted) (text : String) :
    (b.mark text).Accounted :=
  ⟨h.writes, h.masked, h.vectorBase, h.stackPointer, h.entry, h.starts⟩

/-- One event more. -/
theorem Accounted.of_noted {e : Event} {b after : Bench} (h : b.Accounted)
    (hnoted : Noted e b after) : after.Accounted where
  writes := by
    have hone : [e].filterMap Event.write? = e.write?.toList := by
      cases hw : e.write? <;> simp [hw]
    rw [hnoted.writes, hnoted.log, List.filterMap_append, hone, h.writes]
  masked := by
    rw [hnoted.masked, hnoted.log, List.mem_append, List.mem_singleton, h.masked, eq_comm (a := e)]
  vectorBase := by
    rw [hnoted.vectorBase, hnoted.log, Event.last?_append, Event.last?_singleton, h.vectorBase]
    cases e.table? <;> rfl
  stackPointer := by
    rw [hnoted.stackPointer, hnoted.log, Event.last?_append, Event.last?_singleton, h.stackPointer]
    cases e.start? <;> rfl
  entry := by
    rw [hnoted.entry, hnoted.log, Event.last?_append, Event.last?_singleton, h.entry]
    cases e.start? <;> rfl
  starts past sp entry masked later hlog := by
    rw [hnoted.log] at hlog
    -- The start is the new event, or it is in the old log, followed by what the new event follows.
    rcases List.eq_nil_or_concat later with rfl | ⟨later, x, rfl⟩
    · obtain ⟨rfl, he⟩ := List.append_inj' hlog rfl
      obtain rfl : e = .start sp entry masked := List.singleton_inj.mp he
      rw [hnoted.flag sp entry masked rfl, h.masked]
    · have hold : b.log.toList ++ [e] = (past ++ .start sp entry masked :: later) ++ [x] := by
        rw [hlog, List.concat_eq_append, List.append_assoc, List.cons_append]
      exact h.starts past sp entry masked later (List.append_inj' hold rfl).1

theorem keptByRig_accounted : KeptByRig fun _ b after => Accounted b → Accounted after where
  toKeptByScript := KeptByEvents.keptByScript
    { refl := fun _ h => h
      trans := fun hbc hce h => hce (hbc h)
      noted := fun hnoted h => h.of_noted hnoted
      mark := fun text _ h => h.of_mark text }
  place a w _ h := h.of_place a w

/-! ## 5. Memory -/

/-- **The later memory is the earlier one with the words of the log since then in it**, at each
address the one that was written last. -/
def Overrides (b after : Bench) : Prop :=
  ∃ es, after.log.toList = b.log.toList ++ es ∧
    ∀ a, after.memory[a]? = (Event.last? (Event.wordAt? a) es).or b.memory[a]?

theorem Overrides.refl (b : Bench) : Overrides b b :=
  ⟨[], (List.append_nil _).symm, fun _ => rfl⟩

theorem Overrides.trans {b c d : Bench} (hbc : Overrides b c) (hcd : Overrides c d) :
    Overrides b d := by
  obtain ⟨es, hes, hmem⟩ := hbc
  obtain ⟨fs, hfs, hmem'⟩ := hcd
  refine ⟨es ++ fs, by rw [hfs, hes, List.append_assoc], fun a => ?_⟩
  rw [hmem', hmem, Event.last?_append, Option.or_assoc]

theorem keptByScript_overrides : KeptByScript fun _ => Overrides :=
  KeptByEvents.keptByScript
    { refl := .refl
      trans := .trans
      noted := fun {e b after} hnoted =>
        ⟨[e], hnoted.log, fun a => by rw [Event.last?_singleton, hnoted.memory]⟩
      mark := fun _ b => ⟨[], (List.append_nil _).symm, fun _ => rfl⟩ }

/-- What a log has grown by are the events since. -/
theorem eventsSince_eq {b after : Bench} {es : List Event}
    (h : after.log.toList = b.log.toList ++ es) : b.eventsSince after = es := by
  rw [eventsSince, h, ← Array.length_toList, List.drop_left]

end Bench

/-! ## 6. Every bench that can be reached -/

open Script

/-- **The log is a complete account of a bench.**  On every bench that steps lead to from power-on,
also on one that a fault left behind, the registers are what the log says.  From there on the log
only grows.  A stretch of steps that places no words leaves the memory it found, with the words of
its own events in it, at each address the last. -/
theorem log_accounts_for_bench (past : List Step) (b : Bench) (hpast : Reaches .empty past b) :
    b.Accounted ∧
      ∀ stretch after, Reaches b stretch after →
        after.log.toList = b.log.toList ++ b.eventsSince after ∧
        (anyPlaces stretch = false → ∀ a, after.memory[a]? =
          (Event.last? (Event.wordAt? a) (b.eventsSince after)).or b.memory[a]?) := by
  refine ⟨Bench.keptByRig_accounted.reaches hpast Bench.accounted_empty, ?_⟩
  intro stretch after hstretch
  refine ⟨(Bench.keptByRig_logged.reaches hstretch).log_eq, fun hplaces a => ?_⟩
  obtain ⟨es, hlog, hmem⟩ := Bench.keptByScript_overrides.reaches hstretch
    (fun h => by rw [hplaces] at h; cases h)
  rw [Bench.eventsSince_eq hlog, hmem]

/-- A reset that faults on the second of two words.  What it left has the first word, and the log
that goes with it. -/
theorem log_accounts_for_bench_half_done :
    let layout : Layout :=
      { stackTop := ⟨0x20010000⟩
        data := ⟨⟨0x20000000⟩, ⟨0x20000008⟩⟩
        dataLoad := ⟨0x08001000⟩
        bss := ⟨⟨0x20000008⟩, ⟨0x2000000c⟩⟩ }
    let placed := (run [.command (.place ⟨0x08001000⟩ [7])] Bench.empty).2
    let spent := (Step.reset ⟨layout, false⟩ [.exit .idle]).leaves placed
    spent.Accounted ∧
      spent.log.toList = [.read ⟨0x08001000⟩, .write ⟨0x20000000⟩ 7, .read ⟨0x08001004⟩] ∧
      spent.memory[Address.mk 0x20000000]? = some 7 := by
  intro layout placed spent
  have hplaced : Reaches Bench.empty _ placed := reaches_run _ _
  have hspent : Reaches placed [.reset ⟨layout, false⟩ [.exit .idle]] spent := .left (.here _)
  obtain ⟨haccounted, -⟩ := log_accounts_for_bench _ spent (.inHand hspent)
  obtain ⟨-, hstretch⟩ := log_accounts_for_bench _ placed hplaced
  obtain ⟨hlog, hmem⟩ := hstretch _ spent hspent
  refine ⟨haccounted, hlog.trans (by decide +kernel), ?_⟩
  rw [hmem rfl]
  decide +kernel

end StageZero
