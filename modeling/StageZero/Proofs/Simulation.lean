/-
# The bench stands for the board

What the loader does is watched on a bench and happens on a board.  The two machines have little
in common: a bench has a sparse map of words, knows which words it has, and logs every access; a
board has bytes, all of them there, and shows nothing but the signals of its processor.  This file
proves that the bench may stand for the board.

A board `Mirrors` a bench if each accessible word is the word of the bench, or zero where the
bench has none, and if the signals it showed are the image of the log of the bench.

* Each operation of a machine takes mirroring machines to mirroring machines, unless the bench
  faults.  The procedures of the loader are made of these operations, so the same is true of them
  (`Proc.Mirrors`, closed under `bind`).
* Hence a script has the same reports on both, step by step and inside of every reset, as long as
  it touches accessible words only, meets no fault on the bench, and does not wait: a bench has no
  clock (`run_mirrors`).

A fault is where the two part.  A read of a word that the bench does not have is a fault there and
a zero on the board, and a procedure that faults half-way leaves a bench untouched and a board
half-changed.  So the fault is a way out of every statement here, and closed off at the end.
-/
import Mathlib.Data.List.Forall2
import StageZero.Proofs.BoardWords
import StageZero.Proofs.Preservation
import StageZero.Proofs.RamImage

namespace StageZero

open Board (Accessible)
open Region (wordsFrom)

/-! ## 1. Machines that look alike -/

/-- What a board shows of an event. -/
def Event.signals : Event → List Signal
  | .read _ => []
  | .write _ _ => []
  | .maskInterrupts => [.maskInterrupts]
  | .relocate table => [.vectorBase table, .dataBarrier, .instructionBarrier]
  | .start stackPointer entry _ => [.bootstrap stackPointer entry]
  | .idle => [.waitForInterrupt]

/-- **A board mirrors a bench**: it has the words of the bench where a word may be accessed, zero
where the bench has none, and it showed what the bench logged. -/
structure Mirrors (b : Bench) (d : Board) : Prop where
  word : ∀ a, Accessible a → d.word a = (b.memory[a]?).getD 0
  signals : d.signals.toList = b.log.toList.flatMap Event.signals

theorem mirrors_blank : Mirrors .empty .blank where
  word a _ := by simp [Bench.empty]
  signals := rfl

namespace Mirrors

variable {b after : Bench} {d later : Board}

/-- Something was asked of both machines that is no access to a word. -/
theorem signal (h : Mirrors b d) (e : Event) (hmem : after.memory = b.memory)
    (hlog : after.log = b.log.push e) (hword : ∀ a, later.word a = d.word a)
    (hsig : later.signals.toList = d.signals.toList ++ e.signals) : Mirrors after later where
  word a ha := by rw [hword, hmem, h.word a ha]
  signals := by
    rw [hsig, hlog, Array.toList_push, List.flatMap_append, h.signals, List.flatMap_singleton]

/-- A word was stored in both machines. -/
theorem store (h : Mirrors b d) {a : Address} (ha : Accessible a) (w : Word)
    (hmem : ∀ x, after.memory[x]? = if x = a then some w else b.memory[x]?)
    (hlog : after.log.toList.flatMap Event.signals = b.log.toList.flatMap Event.signals) :
    Mirrors after (d.setWord a w) where
  word x hx := by
    rw [Board.word_setWord ha.1 hx.1, hmem]
    by_cases heq : x = a
    · rw [if_pos heq, if_pos heq, Option.getD_some]
    · rw [if_neg heq, if_neg heq, h.word x hx]
  signals := h.signals.trans hlog.symm

/-- What a board showed since an earlier moment is the image of what the bench logged since. -/
theorem signalsSince (h : Mirrors b d) (h' : Mirrors after later)
    (hlog : Bench.Logged (fun _ => True) b after) :
    d.signalsSince later = (b.eventsSince after).flatMap Event.signals := by
  rw [Board.signalsSince, h'.signals, hlog.log_eq, List.flatMap_append, ← h.signals,
    ← Array.length_toList, List.drop_left]

end Mirrors

/-! ## 2. Procedures that do alike -/

variable {α β : Type}

/-- Two runs end alike: in the same way, with machines that mirror each other.  If the bench
faults nothing is said. -/
def Run.Mirrors (r : Run Bench α) (r' : Run Board α) : Prop :=
  (∃ e, r.1 = .faulted e) ∨ (r.1 = r'.1 ∧ StageZero.Mirrors r.2 r'.2)

/-- Two procedures do alike on machines that mirror each other. -/
def Proc.Mirrors (p : Proc Bench α) (q : Proc Board α) : Prop :=
  ∀ b d, StageZero.Mirrors b d → Run.Mirrors (p b) (q d)

theorem Run.Mirrors.and_then {r : Run Bench α} {r' : Run Board α} {f : α → Proc Bench β}
    {g : α → Proc Board β} (hr : r.Mirrors r') (hf : ∀ a, (f a).Mirrors (g a)) :
    (Run.andThen r f).Mirrors (Run.andThen r' g) := by
  obtain ⟨outcome, b⟩ := r
  obtain ⟨outcome', d⟩ := r'
  rcases hr with ⟨e, he⟩ | ⟨hout, hmir⟩
  · obtain rfl : outcome = .faulted e := he
    exact Or.inl ⟨e, rfl⟩
  · obtain rfl : outcome = outcome' := hout
    cases outcome with
    | returned a => exact hf a b d hmir
    | faulted e => exact Or.inl ⟨e, rfl⟩
    | diverged x => exact Or.inr ⟨rfl, hmir⟩

namespace Proc.Mirrors

theorem pure (a : α) : (Pure.pure a : Proc Bench α).Mirrors (Pure.pure a) :=
  fun _ _ h => Or.inr ⟨rfl, h⟩

theorem bind {p : Proc Bench α} {q : Proc Board α} {f : α → Proc Bench β} {g : α → Proc Board β}
    (hp : p.Mirrors q) (hf : ∀ a, (f a).Mirrors (g a)) : (p >>= f).Mirrors (q >>= g) :=
  fun b d h => (hp b d h).and_then hf

theorem act {f : Bench → Bench} {g : Board → Board}
    (hf : ∀ {b d}, StageZero.Mirrors b d → StageZero.Mirrors (f b) (g d)) :
    (Proc.act f).Mirrors (Proc.act g) :=
  fun _ _ h => Or.inr ⟨rfl, hf h⟩

theorem leave {x : Ending} {f : Bench → Bench} {g : Board → Board}
    (hf : ∀ {b d}, StageZero.Mirrors b d → StageZero.Mirrors (f b) (g d)) :
    (Proc.leave x f).Mirrors (Proc.leave x g) :=
  fun _ _ h => Or.inr ⟨rfl, hf h⟩

end Proc.Mirrors

/-! ## 3. The operations of a machine -/

theorem mirrors_read {a : Address} (ha : Accessible a) :
    (readWord a : Proc Bench Word).Mirrors (readWord a) := by
  intro b d h
  cases hw : b.memory[a]? with
  | none =>
    rw [Bench.readWord_absent hw]
    exact Or.inl ⟨_, rfl⟩
  | some w =>
    have hword : d.word a = w := by rw [h.word a ha, hw, Option.getD_some]
    rw [Bench.readWord_present hw]
    refine Or.inr ⟨?_, ?_⟩
    · simp only [readWord, if_pos ha, hword]
    · simp only [readWord, if_pos ha]
      exact h.signal (.read a) rfl rfl (fun _ => rfl) (by simp [Event.signals])

theorem mirrors_write {a : Address} (ha : Accessible a) (w : Word) :
    (writeWord a w : Proc Bench Unit).Mirrors (writeWord a w) := by
  intro b d h
  refine Or.inr ⟨?_, ?_⟩
  · simp only [writeWord, if_pos ha]
  · rw [Bench.writeWord_eq]
    simp only [writeWord, if_pos ha]
    exact h.store ha w (fun x => Bench.memory_store a x w b) (by simp [Bench.store, Event.signals])

theorem mirrors_mask {b : Bench} {d : Board} (h : Mirrors b d) :
    Mirrors (Machine.maskInterrupts b) (Machine.maskInterrupts d) :=
  h.signal .maskInterrupts rfl rfl (fun _ => rfl)
    (by simp [Machine.maskInterrupts, Board.emit, Event.signals])

theorem mirrors_relocate (table : Address) {b : Bench} {d : Board} (h : Mirrors b d) :
    Mirrors (Machine.relocateVectors table b) (Machine.relocateVectors table d) :=
  h.signal (.relocate table) rfl rfl (fun _ => rfl)
    (by simp [Machine.relocateVectors, Board.emit, Event.signals])

theorem mirrors_launch (sp entry : Word) {b : Bench} {d : Board} (h : Mirrors b d) :
    Mirrors (Machine.launch sp entry b) (Machine.launch sp entry d) :=
  h.signal (.start sp entry b.masked) rfl rfl (fun _ => rfl)
    (by simp [Machine.launch, Board.emit, Event.signals])

theorem mirrors_sleep {b : Bench} {d : Board} (h : Mirrors b d) :
    Mirrors (Machine.sleep b) (Machine.sleep d) :=
  h.signal .idle rfl rfl (fun _ => rfl) (by simp [Machine.sleep, Board.emit, Event.signals])

theorem mirrors_placeWords : ∀ (ws : List Word) (a : Address) {b : Bench} {d : Board},
    Mirrors b d → (∀ x ∈ wordsFrom a ws.length, Accessible x) →
    Mirrors (placeWords a ws b) (placeWords a ws d)
  | [], _, _, _, h, _ => h
  | w :: ws, a, b, d, h, hacc => by
    have ha : Accessible a := hacc a List.mem_cons_self
    have hplace : Rig.place a w d = d.setWord a w := if_pos ha
    rw [placeWords, placeWords, hplace]
    exact mirrors_placeWords ws _ (h.store ha w (fun x => Bench.memory_store a x w b) rfl)
      fun x hx => hacc x (List.mem_cons_of_mem _ hx)

theorem mirrors_inspectWords {b : Bench} {d : Board} (h : Mirrors b d) :
    ∀ (n : Nat) (a : Address), (∀ x ∈ wordsFrom a n, Accessible x) →
      (∃ e, inspectWords b a n = .error e) ∨ inspectWords b a n = inspectWords d a n
  | 0, _, _ => Or.inr rfl
  | n + 1, a, hacc => by
    have ha : Accessible a := hacc a List.mem_cons_self
    have hd : Rig.inspect d a = .ok (d.word a) := if_pos ha
    cases hw : b.memory[a]? with
    | none => exact Or.inl ⟨.absent a, by rw [inspectWords, Bench.inspect_absent hw]⟩
    | some w =>
      have hword : d.word a = w := by rw [h.word a ha, hw, Option.getD_some]
      rw [inspectWords, inspectWords, Bench.inspect_present hw, hd, hword]
      rcases mirrors_inspectWords h n (a.addWords 1)
        (fun x hx => hacc x (List.mem_cons_of_mem _ hx)) with ⟨e, he⟩ | heq
      · exact Or.inl ⟨e, by rw [he]; rfl⟩
      · exact Or.inr (by rw [heq])

/-! ## 4. The procedures of the loader -/

theorem mirrors_copyWords : ∀ (n : Nat) (s t : Address), (∀ a ∈ wordsFrom s n, Accessible a) →
    (∀ a ∈ wordsFrom t n, Accessible a) →
    (copyWords s t n : Proc Bench Unit).Mirrors (copyWords s t n)
  | 0, _, _, _, _ => Proc.Mirrors.pure ()
  | n + 1, s, t, hs, ht =>
    (mirrors_read (hs s List.mem_cons_self)).bind fun w =>
      (mirrors_write (ht t List.mem_cons_self) w).bind fun _ =>
        mirrors_copyWords n _ _ (fun a ha => hs a (List.mem_cons_of_mem _ ha))
          (fun a ha => ht a (List.mem_cons_of_mem _ ha))

theorem mirrors_clearWords : ∀ (n : Nat) (t : Address), (∀ a ∈ wordsFrom t n, Accessible a) →
    (clearWords t n : Proc Bench Unit).Mirrors (clearWords t n)
  | 0, _, _ => Proc.Mirrors.pure ()
  | n + 1, t, ht =>
    (mirrors_write (ht t List.mem_cons_self) 0).bind fun _ =>
      mirrors_clearWords n _ fun a ha => ht a (List.mem_cons_of_mem _ ha)

/-- The addresses of the words of a region. -/
def Region.accesses (r : Region) : List Address := wordsFrom r.start r.wordCount

/-- The addresses that loading data reads and writes: as many of each as the source has words. -/
def Layout.loadAccesses (l : Layout) : List Address :=
  wordsFrom l.dataLoad l.source.wordCount ++ wordsFrom l.data.start l.source.wordCount

/-- The addresses that preparing RAM reads and writes. -/
def Layout.accesses (l : Layout) : List Address := l.loadAccesses ++ l.bss.accesses

theorem mirrors_loadData {l : Layout} (h : ∀ a ∈ l.loadAccesses, Accessible a) :
    (loadData l : Proc Bench Unit).Mirrors (loadData l) := by
  by_cases hgood : l.data.Ordered ∧ l.SourceFits
  · rw [Layout.loadAccesses, Layout.wordCount_source hgood.2] at h
    rw [loadData_of_fits hgood.1 hgood.2, loadData_of_fits hgood.1 hgood.2]
    exact mirrors_copyWords _ _ _ (fun a ha => h a (List.mem_append_left _ ha))
      (fun a ha => h a (List.mem_append_right _ ha))
  · intro b d _
    exact Or.inl ⟨.underflow, by rw [loadData_of_not_fits hgood]⟩

theorem mirrors_clearRegion {r : Region} (h : ∀ a ∈ r.accesses, Accessible a) :
    (clearRegion r : Proc Bench Unit).Mirrors (clearRegion r) := by
  by_cases hord : r.Ordered
  · rw [clearRegion_of_ordered hord, clearRegion_of_ordered hord]
    exact mirrors_clearWords _ _ h
  · intro b d _
    exact Or.inl ⟨.underflow, by rw [clearRegion_of_not_ordered hord]⟩

theorem mirrors_prepareRam {l : Layout} (h : ∀ a ∈ l.accesses, Accessible a) :
    (prepareRam l : Proc Bench Unit).Mirrors (prepareRam l) :=
  (mirrors_loadData fun a ha => h a (List.mem_append_left _ ha)).bind fun _ =>
    mirrors_clearRegion fun a ha => h a (List.mem_append_right _ ha)

theorem mirrors_header {table : Address} (h : ∀ a ∈ wordsFrom table 2, Accessible a) :
    (VectorHeader.read table : Proc Bench VectorHeader).Mirrors (VectorHeader.read table) := by
  have hfirst : Accessible (table.addWords VectorHeader.stackPointerIndex) :=
    h _ (by simp [wordsFrom, VectorHeader.stackPointerIndex])
  have hsecond : Accessible (table.addWords VectorHeader.resetIndex) :=
    h _ (by simp [wordsFrom, VectorHeader.resetIndex])
  exact (mirrors_read hfirst).bind fun _ => (mirrors_read hsecond).bind fun _ =>
    Proc.Mirrors.pure _

theorem mirrors_chainLoad {table : Address} (h : ∀ a ∈ wordsFrom table 2, Accessible a) :
    (chainLoad table : Proc Bench Empty).Mirrors (chainLoad table) :=
  (Proc.Mirrors.act mirrors_mask).bind fun _ => (mirrors_header h).bind fun _ =>
    (Proc.Mirrors.act (mirrors_relocate table)).bind fun _ =>
      Proc.Mirrors.leave (mirrors_launch _ _)

/-! ## 5. What a script does -/

namespace Script

/-- The addresses that a command accesses. -/
def Command.accesses : Command → List Address
  | .place a ws => wordsFrom a ws.length
  | .inspect a count => wordsFrom a count.toNat
  | .read a => [a]
  | .write a _ => [a]
  | .header table => wordsFrom table 2
  | .loadData layout => (layout.build.map Layout.loadAccesses).toOption.getD []
  | .clearRegion region => (region.build.map Region.accesses).toOption.getD []
  | .prepareRam layout => (layout.build.map Layout.accesses).toOption.getD []
  | _ => []

/-- The addresses that an exit accesses. -/
def Exit.accesses : Exit → List Address
  | .chainLoad table => wordsFrom table 2
  | _ => []

mutual

/-- The addresses that a step accesses when it is carried out on a bench. -/
def Step.accesses : Step → Bench → List Address
  | .command c, _ => c.accesses
  | .exit e, _ => e.accesses
  | .reset layout entry, b =>
    match layout.build with
    | .error _ => []
    | .ok l =>
      match prepareRam l b with
      | (.returned (), ready) => l.accesses ++ entryAccesses entry ready
      | _ => l.accesses

/-- The addresses that the steps of an entry access, up to the one that gives the machine away. -/
def entryAccesses : List Step → Bench → List Address
  | [], _ => []
  | step :: rest, b =>
    step.accesses b ++
      match (step.run b).reply.ending? with
      | some _ => []
      | none => entryAccesses rest (step.run b).after

end

theorem mem_accesses_reset {layout : Layout.Draft} {l : Layout} (hl : layout.build = .ok l)
    {a : Address} (ha : a ∈ l.accesses) {entry : List Step} {b : Bench} :
    a ∈ (Step.reset layout entry).accesses b := by
  simp only [Step.accesses, hl]
  split
  · exact List.mem_append_left _ ha
  · exact ha

/-- The addresses that a script accesses when it is carried out on a bench. -/
def accesses : List Step → Bench → List Address
  | [], _ => []
  | step :: rest, b => step.accesses b ++ accesses rest (step.run b).after

/-- A command waits. -/
def Command.waits : Command → Bool
  | .delay _ => true
  | _ => false

mutual

/-- A step waits, or one inside of it does. -/
def Step.waits : Step → Bool
  | .command c => c.waits
  | .exit _ => false
  | .reset _ entry => anyWaits entry

/-- One of these steps waits. -/
def anyWaits : List Step → Bool
  | [] => false
  | step :: rest => step.waits || anyWaits rest

end

/-- The fault of a reply. -/
def Reply.fault? : Reply → Option Fault
  | .ended (.faulted e) => some e
  | _ => none

mutual

/-- The faults that a report tells of, those of the steps inside included. -/
def Report.faults {σ : Type} : Report σ → List Fault
  | ⟨_, _, reply, none⟩ => reply.fault?.toList
  | ⟨_, _, reply, some reports⟩ => reply.fault?.toList ++ faultsOf reports

/-- The faults that reports tell of. -/
def faultsOf {σ : Type} : List (Report σ) → List Fault
  | [] => []
  | report :: rest => report.faults ++ faultsOf rest

end

/-! ## 6. Scripts that are told of alike -/

/-- **Two reports tell the same**: machines that mirror each other before and after, the same
reply, signals that are the image of the events, and the same of each step inside. -/
inductive Report.Mirrors : Report Bench → Report Board → Prop
  | intro {r : Report Bench} {r' : Report Board}
      (before : StageZero.Mirrors r.before r'.before)
      (after : StageZero.Mirrors r.after r'.after)
      (reply : r.reply = r'.reply)
      (shown : r'.before.signalsSince r'.after =
        (r.before.eventsSince r.after).flatMap Event.signals)
      (entry : Option.Rel (List.Forall₂ Report.Mirrors) r.entry r'.entry) : Report.Mirrors r r'

theorem Report.Mirrors.mirrors_after {r : Report Bench} {r' : Report Board}
    (h : Report.Mirrors r r') : StageZero.Mirrors r.after r'.after := by
  obtain ⟨-, hafter, -, -, -⟩ := h
  exact hafter

theorem Report.Mirrors.reply_eq {r : Report Bench} {r' : Report Board}
    (h : Report.Mirrors r r') : r.reply = r'.reply := by
  obtain ⟨-, -, hreply, -, -⟩ := h
  exact hreply

theorem Report.faults_eq {σ : Type} (r : Report σ) :
    r.faults = r.reply.fault?.toList ++ (r.entry.map faultsOf).getD [] := by
  obtain ⟨before, after, reply, entry⟩ := r
  cases entry with
  | none => simp [Report.faults]
  | some reports => simp [Report.faults]

/-- A report that tells of no fault has none in its reply and none inside. -/
theorem Report.faultless {σ : Type} {r : Report σ} (h : r.faults = []) :
    r.reply.fault? = none ∧ ∀ reports, r.entry = some reports → faultsOf reports = [] := by
  rw [Report.faults_eq, List.append_eq_nil_iff, Option.toList_eq_nil_iff] at h
  refine ⟨h.1, fun reports hentry => ?_⟩
  rw [hentry] at h
  exact h.2

variable {b : Bench} {d : Board}

/-- A step leaves reports that tell the same, if it leaves machines that mirror each other, with
the same reply. -/
theorem Step.mirrors_of (step : Step) (h : StageZero.Mirrors b d)
    (hafter : StageZero.Mirrors (step.run b).after (step.run d).after)
    (hreply : (step.run b).reply = (step.run d).reply)
    (hentry : Option.Rel (List.Forall₂ Report.Mirrors) (step.run b).entry (step.run d).entry) :
    Report.Mirrors (step.run b) (step.run d) := by
  have hb := Step.run_before step b
  have hd := Step.run_before step d
  refine .intro ?_ hafter hreply ?_ hentry
  · rw [hb, hd]
    exact h
  · rw [hb, hd]
    exact h.signalsSince hafter (Bench.keptByRig_logged.step_run step b)

theorem mirrors_quiet {p : Proc Bench Unit} {q : Proc Board Unit} (h : p.Mirrors q) :
    (quiet p).Mirrors (quiet q) :=
  h.bind fun _ => Proc.Mirrors.pure _

/-- The procedures of a command on both machines: both refused for one reason, or doing alike. -/
inductive ProcsMirror : Except Error (Proc Bench Value) → Except Error (Proc Board Value) → Prop
  | refused (e : Error) : ProcsMirror (.error e) (.error e)
  | alike {p : Proc Bench Value} {q : Proc Board Value} (h : p.Mirrors q) :
      ProcsMirror (.ok p) (.ok q)

theorem procsMirror_map {γ : Type} {x : Except Error γ} {accesses : γ → List Address}
    {f : γ → Proc Bench Value} {g : γ → Proc Board Value}
    (hacc : ∀ a ∈ (x.map accesses).toOption.getD [], Accessible a)
    (hf : ∀ c, (∀ a ∈ accesses c, Accessible a) → (f c).Mirrors (g c)) :
    ProcsMirror (x.map f) (x.map g) := by
  cases x with
  | error e => exact .refused e
  | ok c => exact .alike (hf c hacc)

theorem Command.procs_mirror (c : Command) (hwaits : c.waits = false)
    (hacc : ∀ a ∈ c.accesses, Accessible a) : ProcsMirror c.proc c.proc := by
  cases c with
  | place a ws => exact .alike (mirrors_quiet (.act fun h => mirrors_placeWords ws a h hacc))
  | inspect a count =>
    refine .alike (Proc.Mirrors.bind (fun b d h => ?_) fun _ => .pure _)
    rcases mirrors_inspectWords h count.toNat a hacc with ⟨e, he⟩ | heq
    · exact Or.inl ⟨e, by rw [Proc.observe_apply, he, Proc.lift_error]⟩
    · rw [Proc.observe_apply, Proc.observe_apply, heq]
      cases inspectWords d a count.toNat with
      | ok ws => exact Or.inr ⟨rfl, h⟩
      | error e => exact Or.inl ⟨e, rfl⟩
  | read a => exact .alike ((mirrors_read (hacc a List.mem_cons_self)).bind fun _ => .pure _)
  | write a w => exact .alike (mirrors_quiet (mirrors_write (hacc a List.mem_cons_self) w))
  | mark text => exact .alike (mirrors_quiet (.act fun h => ⟨h.word, h.signals⟩))
  | delay ms => cases hwaits
  | header table => exact .alike ((mirrors_header hacc).bind fun _ => .pure _)
  | loadData layout => exact procsMirror_map hacc fun l hl => mirrors_quiet (mirrors_loadData hl)
  | clearRegion region =>
    exact procsMirror_map hacc fun r hr => mirrors_quiet (mirrors_clearRegion hr)
  | prepareRam layout =>
    exact procsMirror_map hacc fun l hl => mirrors_quiet (mirrors_prepareRam hl)
  | maskInterrupts => exact .alike (mirrors_quiet (.act mirrors_mask))
  | relocate table => exact .alike (mirrors_quiet (.act (mirrors_relocate table)))

theorem Exit.proc_mirrors (e : Exit) (hacc : ∀ a ∈ e.accesses, Accessible a) :
    (e.proc : Proc Bench Empty).Mirrors e.proc := by
  cases e with
  | start sp entry => exact .leave (mirrors_launch sp entry)
  | idle => exact .leave mirrors_sleep
  | chainLoad table => exact mirrors_chainLoad hacc

theorem Command.run_mirrors (c : Command) (h : StageZero.Mirrors b d) (hwaits : c.waits = false)
    (hacc : ∀ a ∈ c.accesses, Accessible a) (hfault : (c.run b).reply.fault? = none) :
    StageZero.Mirrors (c.run b).after (c.run d).after ∧ (c.run b).reply = (c.run d).reply ∧
      (c.run b).entry = none ∧ (c.run d).entry = none := by
  have hprocs := c.procs_mirror hwaits hacc
  unfold Command.run at hfault ⊢
  generalize (c.proc : Except Error (Proc Bench Value)) = x at hprocs hfault ⊢
  generalize (c.proc : Except Error (Proc Board Value)) = y at hprocs ⊢
  cases hprocs with
  | refused e => exact ⟨h, rfl, rfl, rfl⟩
  | alike hpq =>
    rcases hpq b d h with ⟨e, he⟩ | ⟨hout, hmir⟩
    · simp only [he, Reply.fault?] at hfault
      cases hfault
    · exact ⟨hmir, congrArg Reply.ended hout, rfl, rfl⟩

/-- A run that was to give the machine away, and did. -/
theorem Report.ofExit_mirrors {r : Run Bench Empty} {r' : Run Board Empty}
    {reports : Option (List (Report Bench))} (reports' : Option (List (Report Board)))
    (hr : r.Mirrors r') (hfault : (Report.ofExit b r reports).reply.fault? = none) :
    StageZero.Mirrors (Report.ofExit b r reports).after (Report.ofExit d r' reports').after ∧
      (Report.ofExit b r reports).reply = (Report.ofExit d r' reports').reply := by
  obtain ⟨outcome, left⟩ := r
  obtain ⟨outcome', left'⟩ := r'
  rcases hr with ⟨e, he⟩ | ⟨hout, hmir⟩
  · obtain rfl : outcome = .faulted e := he
    cases hfault
  · obtain rfl : outcome = outcome' := hout
    cases outcome with
    | returned x => exact x.elim
    | faulted e => cases hfault
    | diverged x => exact ⟨hmir, rfl⟩

/-- A cold start ends alike, and unless it faults its entry is told of alike, if that is so of the
entry on RAM that was prepared. -/
theorem coldStart_mirrors {l : Layout} (entry : List Step) (h : StageZero.Mirrors b d)
    (hacc : ∀ a ∈ l.accesses, Accessible a)
    (hentry : ∀ {ready : Bench} {ready' : Board}, prepareRam l b = (.returned (), ready) →
      StageZero.Mirrors ready ready' →
      (runEntry entry ready).1.Mirrors (runEntry entry ready').1 ∧
        List.Forall₂ Report.Mirrors (runEntry entry ready).2 (runEntry entry ready').2) :
    (coldStart l (runEntry entry) b).1.Mirrors (coldStart l (runEntry entry) d).1 ∧
      ((∃ e, (coldStart l (runEntry entry) b).1.1 = .faulted e) ∨
        List.Forall₂ Report.Mirrors ((coldStart l (runEntry entry) b).2.getD [])
          ((coldStart l (runEntry entry) d).2.getD [])) := by
  have hram := mirrors_prepareRam hacc b d h
  cases hb : prepareRam l b with
  | mk outcome ready =>
  cases hd : prepareRam l d with
  | mk outcome' ready' =>
  rw [hb, hd] at hram
  cases outcome with
  | faulted e =>
    -- Here the board may well go on and run the entry; nothing is claimed of it.
    rw [coldStart_of_faulted hb]
    exact ⟨Or.inl ⟨e, rfl⟩, Or.inl ⟨e, rfl⟩⟩
  | returned u =>
    rcases hram with ⟨e, he⟩ | ⟨hout, hmir⟩
    · cases he
    · obtain rfl : outcome' = .returned u := hout.symm
      obtain ⟨hrun, hreports⟩ := hentry hb hmir
      rw [coldStart_of_returned hb, coldStart_of_returned hd]
      exact ⟨hrun.and_then fun _ => Proc.Mirrors.leave mirrors_sleep, Or.inr hreports⟩
  | diverged x =>
    rcases hram with ⟨e, he⟩ | ⟨hout, hmir⟩
    · cases he
    · obtain rfl : outcome' = .diverged x := hout.symm
      rw [coldStart_of_diverged hb, coldStart_of_diverged hd]
      exact ⟨Or.inr ⟨rfl, hmir⟩, Or.inr .nil⟩

mutual

/-- **A step is told of alike.**  The induction is on the step; only the bench must not fault, and
only what is carried out must be accessible. -/
theorem Step.run_mirrors : ∀ (step : Step) {b : Bench} {d : Board}, StageZero.Mirrors b d →
    step.waits = false → (∀ a ∈ step.accesses b, Accessible a) → (step.run b).faults = [] →
    Report.Mirrors (step.run b) (step.run d)
  | .command c, b, d, h, hwaits, hacc, hfaults => by
    rw [Step.waits] at hwaits
    rw [Step.accesses] at hacc
    have hfault := (Report.faultless hfaults).1
    have hmirrors := Step.mirrors_of (.command c) h
    simp only [Step.run] at hfault hmirrors ⊢
    obtain ⟨hafter, hreply, hb, hd⟩ := c.run_mirrors h hwaits hacc hfault
    exact hmirrors hafter hreply (by rw [hb, hd]; exact .none)
  | .exit e, b, d, h, _, hacc, hfaults => by
    rw [Step.accesses] at hacc
    have hfault := (Report.faultless hfaults).1
    have hmirrors := Step.mirrors_of (.exit e) h
    simp only [Step.run] at hfault hmirrors ⊢
    obtain ⟨hafter, hreply⟩ :=
      Report.ofExit_mirrors (d := d) none (e.proc_mirrors hacc b d h) hfault
    exact hmirrors hafter hreply .none
  | .reset layout entry, b, d, h, hwaits, hacc, hfaults => by
    rw [Step.waits] at hwaits
    obtain ⟨hfault, hinner⟩ := Report.faultless hfaults
    have hmirrors := Step.mirrors_of (.reset layout entry) h
    cases hl : layout.build with
    | error e =>
      rw [Step.run_refused hl, Step.run_refused hl] at hmirrors ⊢
      exact hmirrors h rfl .none
    | ok l =>
      rw [Step.run_reset hl] at hfault hinner
      rw [Step.run_reset hl, Step.run_reset hl] at hmirrors ⊢
      have hinner := hinner _ rfl
      -- The entry runs on prepared RAM, so its accesses and its faults are looked up there.
      have hlayout : ∀ a ∈ l.accesses, Accessible a :=
        fun a ha => hacc a (mem_accesses_reset hl ha)
      obtain ⟨hrun, hreports⟩ := coldStart_mirrors entry h hlayout (by
        intro ready ready' hready hmir
        rw [coldStart_of_returned hready] at hinner
        refine runEntry_mirrors entry hmir hwaits (fun a ha => hacc a ?_) hinner
        simp only [Step.accesses, hl, hready]
        exact List.mem_append_right _ ha)
      obtain ⟨hafter, hreply⟩ := Report.ofExit_mirrors (d := d)
        (some ((coldStart l (runEntry entry) d).2.getD [])) hrun hfault
      refine hmirrors hafter hreply (.some ?_)
      rcases hreports with ⟨e, he⟩ | hreports
      · rw [Report.ofExit, he] at hfault
        cases hfault
      · exact hreports

/-- The steps of an entry are told of alike, and the entry ends alike. -/
theorem runEntry_mirrors : ∀ (entry : List Step) {b : Bench} {d : Board}, StageZero.Mirrors b d →
    anyWaits entry = false → (∀ a ∈ entryAccesses entry b, Accessible a) →
    faultsOf (runEntry entry b).2 = [] →
    (runEntry entry b).1.Mirrors (runEntry entry d).1 ∧
      List.Forall₂ Report.Mirrors (runEntry entry b).2 (runEntry entry d).2
  | [], b, d, h, _, _, _ => by
    rw [runEntry, runEntry]
    exact ⟨Or.inr ⟨rfl, h⟩, .nil⟩
  | step :: rest, b, d, h, hwaits, hacc, hfaults => by
    rw [anyWaits, Bool.or_eq_false_iff] at hwaits
    rw [entryAccesses] at hacc
    have hstep : (step.run b).faults = [] → Report.Mirrors (step.run b) (step.run d) :=
      Step.run_mirrors step h hwaits.1 fun a ha => hacc a (List.mem_append_left _ ha)
    cases hend : (step.run b).reply.ending? with
    | some x =>
      rw [runEntry_of_ending hend] at hfaults ⊢
      rw [faultsOf, faultsOf, List.append_nil] at hfaults
      have hreport := hstep hfaults
      rw [runEntry_of_ending (hreport.reply_eq ▸ hend)]
      exact ⟨Or.inr ⟨rfl, hreport.mirrors_after⟩, .cons hreport .nil⟩
    | none =>
      rw [runEntry_of_no_ending hend] at hfaults ⊢
      rw [faultsOf, List.append_eq_nil_iff] at hfaults
      have hreport := hstep hfaults.1
      rw [runEntry_of_no_ending (hreport.reply_eq ▸ hend)]
      rw [hend] at hacc
      obtain ⟨hrun, hreports⟩ := runEntry_mirrors rest hreport.mirrors_after hwaits.2
        (fun a ha => hacc a (List.mem_append_right _ ha)) hfaults.2
      exact ⟨hrun, .cons hreport hreports⟩

end

/-- A whole script is told of alike, from any two machines that mirror each other. -/
theorem run_mirrors : ∀ (script : List Step) {b : Bench} {d : Board}, StageZero.Mirrors b d →
    anyWaits script = false → (∀ a ∈ accesses script b, Accessible a) →
    faultsOf (run script b).1 = [] →
    List.Forall₂ Report.Mirrors (run script b).1 (run script d).1 ∧
      StageZero.Mirrors (run script b).2 (run script d).2
  | [], b, d, h, _, _, _ => ⟨.nil, h⟩
  | step :: rest, b, d, h, hwaits, hacc, hfaults => by
    rw [anyWaits, Bool.or_eq_false_iff] at hwaits
    rw [accesses] at hacc
    simp only [run, faultsOf, List.append_eq_nil_iff] at hfaults ⊢
    have hreport : Report.Mirrors (step.run b) (step.run d) :=
      Step.run_mirrors step h hwaits.1 (fun a ha => hacc a (List.mem_append_left _ ha)) hfaults.1
    obtain ⟨hreports, hlast⟩ := run_mirrors rest hreport.mirrors_after hwaits.2
      (fun a ha => hacc a (List.mem_append_right _ ha)) hfaults.2
    exact ⟨.cons hreport hreports, hlast⟩

/-- **What is seen on a bench is what happens on a board.**  A script that does not wait, that
accesses accessible words only, and that meets no fault on a fresh bench, is told of alike on a
fresh bench and on a blank board.  At every depth each step has the same reply, refusals and
endings included, shows the image of the events it logged, and leaves the same words. -/
theorem bench_stands_for_board (script : List Step) (hwaits : anyWaits script = false)
    (hacc : ∀ a ∈ accesses script Bench.empty, Accessible a)
    (hfaults : faultsOf (run script Bench.empty).1 = []) :
    List.Forall₂ Report.Mirrors (run script Bench.empty).1 (run script Board.blank).1 ∧
      StageZero.Mirrors (run script Bench.empty).2 (run script Board.blank).2 :=
  run_mirrors script mirrors_blank hwaits hacc hfaults

mutual

/-- The replies that a report tells of: that of its step, then those of the steps inside. -/
def Report.replies {σ : Type} : Report σ → List Reply
  | ⟨_, _, reply, none⟩ => [reply]
  | ⟨_, _, reply, some reports⟩ => reply :: repliesOf reports

/-- The replies that reports tell of. -/
def repliesOf {σ : Type} : List (Report σ) → List Reply
  | [] => []
  | report :: rest => report.replies ++ repliesOf rest

end

mutual

/-- Reports that tell the same have the same replies, at every depth. -/
theorem Report.Mirrors.replies_eq : ∀ {r : Report Bench} {r' : Report Board},
    Report.Mirrors r r' → r.replies = r'.replies
  | ⟨_, _, reply, none⟩, ⟨_, _, reply', none⟩, h => by
    rw [Report.replies, Report.replies, show reply = reply' from h.reply_eq]
  | ⟨_, _, reply, some reports⟩, ⟨_, _, reply', some reports'⟩, .intro _ _ hreply _ hentry => by
    have hreports : List.Forall₂ Report.Mirrors reports reports' := by
      cases hentry with
      | some h => exact h
    rw [Report.replies, Report.replies, show reply = reply' from hreply, repliesOf_eq hreports]

theorem repliesOf_eq : ∀ {rs : List (Report Bench)} {rs' : List (Report Board)},
    List.Forall₂ Report.Mirrors rs rs' → repliesOf rs = repliesOf rs'
  | [], [], _ => by rw [repliesOf, repliesOf]
  | _ :: _, _ :: _, .cons h hrest => by
    rw [repliesOf, repliesOf, h.replies_eq, repliesOf_eq hrest]

end

/-- A reset inside a reset, both left by a jump, with a refused layout on the way.  The board answers
what the bench answers, in the order of the steps: the inner reset has zeroed what the outer entry
wrote, its jump starts the image that was placed, and the script sees that image in RAM. -/
theorem bench_stands_for_board_nested :
    let layout : Layout :=
      { stackTop := ⟨0x20010000⟩
        data := ⟨⟨0x20000000⟩, ⟨0x20000008⟩⟩
        dataLoad := ⟨0x08001000⟩
        bss := ⟨⟨0x20000008⟩, ⟨0x20000010⟩⟩ }
    let script : List Step :=
      [.command (.place ⟨0x08001000⟩ [0x20008000, 0x08008101]),
        .reset ⟨layout, false⟩
          [.command (.write ⟨0x2000000c⟩ 7),
            .reset ⟨{ layout with data := ⟨⟨0x20000002⟩, ⟨0x20000008⟩⟩ }, true⟩ [],
            .reset ⟨layout, true⟩ [.command (.read ⟨0x2000000c⟩), .exit (.chainLoad ⟨0x20000000⟩)],
            .command (.read ⟨0xfffffffc⟩)],
        .command (.inspect ⟨0x20000000⟩ 4)]
    List.Forall₂ Report.Mirrors (run script Bench.empty).1 (run script Board.blank).1 ∧
    StageZero.Mirrors (run script Bench.empty).2 (run script Board.blank).2 ∧
    repliesOf (run script Board.blank).1 =
      [.ended (.returned .nothing),
        .ended (.diverged .started),
          .ended (.returned .nothing),
          .refused .misaligned,
          .ended (.diverged .started),
            .ended (.returned (.word 0)),
            .ended (.diverged .started),
        .ended (.returned (.words [0x20008000, 0x08008101, 0, 0]))] ∧
    (run script Board.blank).2.signals.toList =
      [.maskInterrupts, .vectorBase ⟨0x20000000⟩, .dataBarrier, .instructionBarrier,
        .bootstrap 0x20008000 0x08008101] := by
  intro layout script
  obtain ⟨hreports, hlast⟩ :=
    bench_stands_for_board script rfl (by decide +kernel) (by decide +kernel)
  refine ⟨hreports, hlast, (repliesOf_eq hreports).symm.trans ?_, hlast.signals.trans ?_⟩
  · decide +kernel
  · decide +kernel

end Script

end StageZero
