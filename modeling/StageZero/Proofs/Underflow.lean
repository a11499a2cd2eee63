/-
# Where preparing RAM stops for want of a length

The length of a region is a difference, and a region that ends below its start has none.  The reset
path asks for three lengths: that of the data, that of the range it is loaded from, and that of the
zeroed region.  The end of the source is a wrapped sum, so a source can be inverted although nobody
ever wrote down inverted bounds.  This file settles for which layouts the path stops there, and what
has been done by then.

* **Loading** takes its lengths before the first access.  It stops on one of them exactly if the data
  is inverted or its source runs past the top of the address space (`Layout.Unloadable`), and then it
  is as if nothing had been called (`loadData_of_unloadable`).  Otherwise source and data are equally
  long, and loading is a copy of just that many words.
* **Clearing** stops exactly if its region is inverted, before the first write.
* So a zeroed region without a length is noticed only once the data is loaded.

All this holds on any machine.  A machine may have faults of its own, which an access runs into
(`ReadFault`, `WriteFault`); the loops add none to them (`copyWords_faultsOnly`,
`clearWords_faultsOnly`), so whatever fault is not one of these comes from a length.
-/
import StageZero.Proofs.ForwardCopy

namespace StageZero

variable {σ α β : Type}

/-! ## 1. Faults of a machine -/

/-- A procedure faults in no other way than these. -/
def Proc.FaultsOnly (P : Fault → Prop) (p : Proc σ α) : Prop :=
  ∀ s e, (p s).1 = .faulted e → P e

theorem Proc.faultsOnly_pure {P : Fault → Prop} (a : α) : (pure a : Proc σ α).FaultsOnly P := by
  intro s e hfault
  cases hfault

theorem Proc.FaultsOnly.bind {P : Fault → Prop} {p : Proc σ α} {f : α → Proc σ β}
    (hp : p.FaultsOnly P) (hf : ∀ a, (f a).FaultsOnly P) : (p >>= f).FaultsOnly P := by
  intro s e hfault
  rw [Proc.bind_apply] at hfault
  cases hrun : p s with
  | mk outcome t =>
  rw [hrun] at hfault
  cases outcome with
  | returned a => exact hf a t e hfault
  | faulted e' =>
    cases hfault
    exact hp s e (by rw [hrun])
  | diverged d => cases hfault

/-- Reading a word can end in this fault, on some machine of this kind. -/
def ReadFault (σ : Type) [Machine σ] (e : Fault) : Prop :=
  ∃ a s, ((readWord a : Proc σ Word) s).1 = .faulted e

/-- Writing a word can end in this fault, on some machine of this kind. -/
def WriteFault (σ : Type) [Machine σ] (e : Fault) : Prop :=
  ∃ a w s, ((writeWord a w : Proc σ Unit) s).1 = .faulted e

section Loops

variable [Machine σ]

theorem readWord_faultsOnly (a : Address) :
    (readWord a : Proc σ Word).FaultsOnly fun e => ReadFault σ e ∨ WriteFault σ e :=
  fun s _ hfault => Or.inl ⟨a, s, hfault⟩

theorem writeWord_faultsOnly (a : Address) (w : Word) :
    (writeWord a w : Proc σ Unit).FaultsOnly (WriteFault σ) :=
  fun s _ hfault => ⟨a, w, s, hfault⟩

/-- **A copy faults only where an access does.** -/
theorem copyWords_faultsOnly (n : Nat) (s t : Address) :
    (copyWords s t n : Proc σ Unit).FaultsOnly fun e => ReadFault σ e ∨ WriteFault σ e := by
  induction n generalizing s t with
  | zero => exact Proc.faultsOnly_pure ()
  | succ n ih =>
    refine (readWord_faultsOnly s).bind fun w => ?_
    refine Proc.FaultsOnly.bind (fun m e hfault => Or.inr ?_) fun _ => ih _ _
    exact writeWord_faultsOnly t w m e hfault

/-- **Clearing faults only where a write does.** -/
theorem clearWords_faultsOnly (n : Nat) (t : Address) :
    (clearWords t n : Proc σ Unit).FaultsOnly (WriteFault σ) := by
  induction n generalizing t with
  | zero => exact Proc.faultsOnly_pure ()
  | succ n ih => exact (writeWord_faultsOnly t 0).bind fun _ => ih _

end Loops

theorem Bench.not_writeFault (e : Fault) : ¬ WriteFault Bench e := by
  rintro ⟨a, w, b, hfault⟩
  cases hfault

theorem Bench.not_readFault_underflow : ¬ ReadFault Bench .underflow := by
  rintro ⟨a, b, hfault⟩
  cases hw : b.memory[a]? with
  | some w =>
    rw [readWord_present hw] at hfault
    cases hfault
  | none =>
    rw [readWord_absent hw] at hfault
    cases hfault

theorem Board.not_readFault_underflow : ¬ ReadFault Board .underflow := by
  rintro ⟨a, b, hfault⟩
  simp only [readWord] at hfault
  split at hfault
  · cases hfault
  · cases hfault

theorem Board.not_writeFault_underflow : ¬ WriteFault Board .underflow := by
  rintro ⟨a, w, b, hfault⟩
  simp only [writeWord] at hfault
  split at hfault
  · cases hfault
  · cases hfault

/-! ## 2. Which lengths are missing -/

/-- A region ends below its start. -/
def Region.Inverted (r : Region) : Prop := r.stop.val < r.start.val

instance (r : Region) : Decidable r.Inverted := inferInstanceAs (Decidable (_ < _))

theorem Region.inverted_iff (r : Region) : r.Inverted ↔ ¬ r.Ordered := UInt32.not_le.symm

/-- The data has no length, or the range that it is loaded from runs past the top of the address
space. -/
def Layout.Unloadable (l : Layout) : Prop :=
  l.data.Inverted ∨ 4294967296 ≤ l.dataLoad.val.toNat + 4 * l.data.wordCount

instance (l : Layout) : Decidable l.Unloadable := inferInstanceAs (Decidable (_ ∨ _))

theorem Layout.unloadable_iff (l : Layout) :
    l.Unloadable ↔ ¬ (l.data.Ordered ∧ l.SourceFits) := by
  rw [Unloadable, Region.inverted_iff, SourceFits, ← Nat.not_lt, Decidable.not_and_iff_or_not]

theorem Layout.loadable_iff (l : Layout) :
    ¬ l.Unloadable ↔ l.data.Ordered ∧ l.SourceFits := by
  rw [unloadable_iff, Decidable.not_not]

/-- The source can not be named exactly if the data is inverted. -/
theorem Layout.dataSource_fails_iff (l : Layout) (e : Fault) :
    l.dataSource = .error e ↔ e = .underflow ∧ l.data.Inverted := by
  rw [Region.inverted_iff]
  by_cases hdata : l.data.Ordered
  · simp [dataSource_of_ordered hdata, hdata]
  · simp [dataSource_of_not_ordered hdata, hdata, eq_comm]

/-! ## 3. Loading, clearing, and both -/

section Paths

variable [Machine σ]

theorem loadData_of_unloadable {l : Layout} (h : l.Unloadable) (s : σ) :
    loadData l s = (.faulted .underflow, s) :=
  loadData_of_not_fits ((Layout.unloadable_iff l).mp h) s

/-- Source and data are equally long, and loading copies just that many words. -/
theorem loadData_of_loadable {l : Layout} (h : ¬ l.Unloadable) :
    ∃ source n, l.dataSource = .ok source ∧ source.lengthWords = .ok n ∧
      l.data.lengthWords = .ok n ∧
      (loadData l : Proc σ Unit) = copyWords source.start l.data.start n.toNat := by
  obtain ⟨hdata, hfits⟩ := (Layout.loadable_iff l).mp h
  have hsource := (Layout.source_ordered_iff l).mpr hfits
  refine ⟨l.source, UInt32.ofNat l.data.wordCount, Layout.dataSource_of_ordered hdata, ?_,
    Region.lengthWords_of_ordered hdata, ?_⟩
  · rw [Region.lengthWords_of_ordered hsource, Layout.wordCount_source hfits]
  · rw [loadData_of_fits hdata hfits, Region.toNat_ofNat_wordCount]
    rfl

/-- **A fault of loading that no access makes is a missing length.** -/
theorem loadData_faults_iff (l : Layout) (s : σ) {e : Fault} (hread : ¬ ReadFault σ e)
    (hwrite : ¬ WriteFault σ e) :
    (loadData l s).1 = .faulted e ↔ e = .underflow ∧ l.Unloadable := by
  by_cases h : l.Unloadable
  · rw [loadData_of_unloadable h]
    constructor
    · intro hfault
      cases hfault
      exact ⟨rfl, h⟩
    · rintro ⟨rfl, -⟩
      rfl
  · obtain ⟨source, n, -, -, -, hcopy⟩ := loadData_of_loadable (σ := σ) h
    rw [hcopy]
    constructor
    · intro hfault
      rcases copyWords_faultsOnly _ _ _ s e hfault with hown | hown
      · exact absurd hown hread
      · exact absurd hown hwrite
    · rintro ⟨-, hbad⟩
      exact absurd hbad h

theorem clearRegion_of_inverted {r : Region} (h : r.Inverted) (s : σ) :
    clearRegion r s = (.faulted .underflow, s) :=
  clearRegion_of_not_ordered ((Region.inverted_iff r).mp h) s

/-- **A fault of clearing that no write makes is a missing length.** -/
theorem clearRegion_faults_iff (r : Region) (s : σ) {e : Fault} (hwrite : ¬ WriteFault σ e) :
    (clearRegion r s).1 = .faulted e ↔ e = .underflow ∧ r.Inverted := by
  by_cases h : r.Inverted
  · rw [clearRegion_of_inverted h]
    constructor
    · intro hfault
      cases hfault
      exact ⟨rfl, h⟩
    · rintro ⟨rfl, -⟩
      rfl
  · have hord : r.Ordered := by rwa [Region.inverted_iff, Decidable.not_not] at h
    rw [clearRegion_of_ordered hord]
    constructor
    · intro hfault
      exact absurd (clearWords_faultsOnly _ _ s e hfault) hwrite
    · rintro ⟨-, hbad⟩
      exact absurd hbad h

/-- A zeroed region without a length is noticed once the data is loaded, and not before. -/
theorem prepareRam_of_inverted_bss {l : Layout} (hbss : l.bss.Inverted) {s loaded : σ}
    (hload : loadData l s = (.returned (), loaded)) :
    prepareRam l s = (.faulted .underflow, loaded) := by
  rw [prepareRam_of_loads hload, clearRegion_of_inverted hbss]

end Paths

namespace Bench

/-- On a bench with readable source words, loading carries over all of them. -/
theorem loadData_carries {l : Layout} {b : Bench} (h : ¬ l.Unloadable)
    (hreadable : b.Readable l.dataLoad l.data.start l.data.wordCount) :
    ∃ ws, b.Carried l.dataLoad l.data.start l.data.wordCount ws ∧
      ws.length = l.data.wordCount ∧
      loadData l b =
        (.returned (), b.wrote l.data.start ws (copyEvents l.dataLoad l.data.start ws)) := by
  obtain ⟨hdata, hfits⟩ := (Layout.loadable_iff l).mp h
  obtain ⟨loaded, hloaded⟩ := copyWords_returns_iff.mpr hreadable
  obtain ⟨ws, hws, hcopy⟩ := copyWords_rounds l.dataLoad l.data.start l.data.wordCount b
  rw [loadData_of_fits hdata hfits, hcopy]
  rw [hloaded, copyRun] at hcopy
  split at hcopy
  · cases hcopy
  · rename_i hwhole
    refine ⟨ws, hws, Nat.le_antisymm hws.length_le (Nat.not_lt.mp hwhole), ?_⟩
    rw [copyRun, if_neg hwhole]

end Bench

/-! ## 4. Every layout on every machine -/

/-- **The lengths that preparing RAM stops on.**  The source can not be named exactly if the data is
inverted.  Loading stops on a length exactly if that is so or the source runs past the top of the
address space, with the machine as it was; otherwise source and data have one length, and all of it
is copied.  Clearing stops on a length exactly if its region is inverted, with the machine as it was.
So an inverted zeroed region lets all of the data be loaded, and that is all that is done.

On a machine that nothing is known of, the faults that its own accesses run into are left aside.  A
bench and a board have none that could be taken for a missing length, and on a bench nothing else can
go wrong with a write, or with a read from a source that is there. -/
theorem prepareRam_underflow (l : Layout) [Machine σ] :
    (∀ e, l.dataSource = .error e ↔ e = .underflow ∧ l.data.Inverted) ∧
      (∀ s : σ, l.Unloadable → loadData l s = (.faulted .underflow, s)) ∧
      (∀ (s : σ) (e : Fault), ¬ ReadFault σ e → ¬ WriteFault σ e →
        ((loadData l s).1 = .faulted e ↔ e = .underflow ∧ l.Unloadable)) ∧
      (∀ b : Bench, (loadData l b).1 = .faulted .underflow ↔ l.Unloadable) ∧
      (∀ b : Board, (loadData l b).1 = .faulted .underflow ↔ l.Unloadable) ∧
      (¬ l.Unloadable → ∃ source n, l.dataSource = .ok source ∧ source.lengthWords = .ok n ∧
        l.data.lengthWords = .ok n ∧
        (loadData l : Proc σ Unit) = copyWords source.start l.data.start n.toNat) ∧
      (∀ s : σ, l.bss.Inverted → clearRegion l.bss s = (.faulted .underflow, s)) ∧
      (∀ (s : σ) (e : Fault), ¬ WriteFault σ e →
        ((clearRegion l.bss s).1 = .faulted e ↔ e = .underflow ∧ l.bss.Inverted)) ∧
      (∀ (b : Bench) (e : Fault),
        (clearRegion l.bss b).1 = .faulted e ↔ e = .underflow ∧ l.bss.Inverted) ∧
      (∀ s loaded : σ, l.bss.Inverted → loadData l s = (.returned (), loaded) →
        prepareRam l s = (.faulted .underflow, loaded)) ∧
      ∀ b : Bench, l.bss.Inverted → ¬ l.Unloadable →
        b.Readable l.dataLoad l.data.start l.data.wordCount →
        ∃ ws, b.Carried l.dataLoad l.data.start l.data.wordCount ws ∧
          ws.length = l.data.wordCount ∧
          prepareRam l b = (.faulted .underflow,
            b.wrote l.data.start ws (Bench.copyEvents l.dataLoad l.data.start ws)) := by
  refine ⟨l.dataSource_fails_iff, fun s h => loadData_of_unloadable h s,
    fun s e hread hwrite => loadData_faults_iff l s hread hwrite, fun b => ?_, fun b => ?_,
    loadData_of_loadable, fun s h => clearRegion_of_inverted h s,
    fun s e hwrite => clearRegion_faults_iff _ s hwrite,
    fun b e => clearRegion_faults_iff _ b (Bench.not_writeFault e),
    fun s loaded hbss hload => prepareRam_of_inverted_bss hbss hload, ?_⟩
  · rw [loadData_faults_iff l b Bench.not_readFault_underflow (Bench.not_writeFault _)]
    exact and_iff_right rfl
  · rw [loadData_faults_iff l b Board.not_readFault_underflow Board.not_writeFault_underflow]
    exact and_iff_right rfl
  · intro b hbss hgood hreadable
    obtain ⟨ws, hws, hlen, hload⟩ := Bench.loadData_carries hgood hreadable
    exact ⟨ws, hws, hlen, prepareRam_of_inverted_bss hbss hload⟩

/-- An inverted zeroed region behind two words of data: both are loaded, and then there is no length.
Loaded from higher up the source would wrap, and nothing is done at all. -/
theorem prepareRam_underflow_after_copy :
    let l : Layout :=
      { stackTop := ⟨0x20010000⟩
        data := ⟨⟨0x20000000⟩, ⟨0x20000008⟩⟩
        dataLoad := ⟨0x08001000⟩
        bss := ⟨⟨0x2000000c⟩, ⟨0x20000008⟩⟩ }
    let high := { l with dataLoad := ⟨0xfffffff8⟩ }
    let b := placeWords l.dataLoad [7, 9] Bench.empty
    (∃ ws : List Word, ws.length = 2 ∧
      prepareRam l b = (.faulted .underflow,
        b.wrote l.data.start ws (Bench.copyEvents l.dataLoad l.data.start ws)) ∧
      (prepareRam l b).2.writes.toList = [(⟨0x20000000⟩, 7), (⟨0x20000004⟩, 9)]) ∧
      (loadData l b).1 ≠ .faulted .underflow ∧
      loadData high b = (.faulted .underflow, b) := by
  intro l high b
  obtain ⟨-, -, hload, -, -, -, -, -, -, -, hcarries⟩ := prepareRam_underflow (σ := Bench) l
  obtain ⟨-, hwrapped, -⟩ := prepareRam_underflow (σ := Bench) high
  obtain ⟨ws, -, hlen, hram⟩ := hcarries b (by decide) (by decide) (by decide)
  refine ⟨⟨ws, hlen.trans (by decide), hram, by decide⟩, fun hfault => ?_,
    hwrapped b (by decide)⟩
  obtain ⟨-, hbad⟩ :=
    (hload b .underflow Bench.not_readFault_underflow (Bench.not_writeFault _)).mp hfault
  exact absurd hbad (by decide)

end StageZero
