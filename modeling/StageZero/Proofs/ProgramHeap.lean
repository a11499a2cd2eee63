/-
# The heap of a program

A program has one heap, which begins where its zeroed memory ends.  Its break is assumed to lie
outside the memory that a reset prepares (see `Firmware`).  So no reset takes anything back, and
what is placed in memory or waited for in between is not its concern.

This file carries the account of `Growth` over to the program.  At every moment of every run the
break is that address plus the bytes of all growths that the run came by, and each of them has
returned the sum up to itself (`Reaches.grownBy`).

Together the two are the account of all heaps (`growths_add_up`).
-/
import StageZero.Proofs.Growth
import StageZero.Proofs.TaskChain

namespace StageZero

namespace Firmware

/-! ## 1. Services and the heap -/

/-- The bytes that a service grows the heap by, if it does. -/
def Service.increment? : Service → Option UInt32
  | .grow n => some n
  | _ => none

/-- The bytes of the growths among some services. -/
def increments (services : List Service) : List UInt32 := services.filterMap Service.increment?

theorem increments_cons (s : Service) (services : List Service) :
    increments (s :: services) = increments [s] ++ increments services := by
  rw [increments, increments, increments, ← List.filterMap_append, List.singleton_append]

/-- Growths of the heap of the program. -/
def growths (ns : List UInt32) : List Growth := ns.map fun n => ⟨0, layout.bss.stop, n⟩

theorem growths_concat (ns : List UInt32) (n : UInt32) :
    growths (ns ++ [n]) = growths ns ++ [⟨0, layout.bss.stop, n⟩] := List.map_append

theorem bytes_growths (ns : List UInt32) : (growths ns).map Growth.bytes = ns := by
  rw [growths, List.map_map]
  exact List.map_id ns

theorem base_growths (ns : List UInt32) :
    Growth.base layout.bss.stop (growths ns) = layout.bss.stop := by
  cases ns <;> rfl

/-- **The heap of a program has grown by these increments**, and the origin was asked for if there was
one. -/
structure GrownBy (ns : List UInt32) (f : Firmware) : Prop where
  heap : f.heap = ⟨Growth.break? (growths ns)⟩
  origin : f.origin = ⟨layout.bss.stop, if ns = [] then 0 else 1⟩

theorem grownBy_fresh : GrownBy [] fresh := ⟨rfl, rfl⟩

theorem GrownBy.top_eq {ns : List UInt32} {f : Firmware} (h : GrownBy ns f) :
    f.heap.top = if ns = [] then none else some (layout.bss.stop.above ns) := by
  rw [h.heap]
  cases ns with
  | nil => rfl
  | cons n ns =>
    rw [Growth.break?_of_ne_nil (by simp [growths]) layout.bss.stop, bytes_growths, base_growths]
    rfl

/-- Nothing but the heap and its origin is looked at. -/
theorem GrownBy.congr {ns : List UInt32} {f g : Firmware} (h : GrownBy ns f)
    (hheap : g.heap = f.heap) (horigin : g.origin = f.origin) : GrownBy ns g :=
  ⟨hheap.trans h.heap, horigin.trans h.origin⟩

/-- **The growth of the program's heap returns the sum so far**, and the origin is asked for if there
was no growth before. -/
theorem GrownBy.grow {ns : List UInt32} {f : Firmware} (h : GrownBy ns f) (n : UInt32) :
    ∃ g, (Service.grow n).proc f = (.returned (.address (layout.bss.stop.above ns)), g) ∧
      GrownBy (ns ++ [n]) g := by
  have hvalue : f.origin.value = layout.bss.stop := by rw [h.origin]
  have hgrow : f.heap.grow n f.origin = (layout.bss.stop.above ns,
      if growths ns = [] then f.origin.consult.2 else f.origin,
      ⟨Growth.break? (growths (ns ++ [n]))⟩) := by
    rw [h.heap, Heap.grow_break? (growths ns) 0 n, hvalue, bytes_growths, base_growths,
      growths_concat]
  simp only [Service.proc, hgrow]
  refine ⟨_, rfl, rfl, ?_⟩
  rw [if_neg (List.concat_ne_nil n ns), h.origin]
  cases ns with
  | nil => rfl
  | cons m ns => rfl

/-- A service that does not grow the heap leaves it alone. -/
theorem Service.heap_eq {s : Service} (hs : s.increment? = none) {f g : Firmware} {v : Value}
    (h : s.proc f = (.returned v, g)) : g.heap = f.heap ∧ g.origin = f.origin := by
  cases s with
  | grow n => cases hs
  | layout => cases h; exact ⟨rfl, rfl⟩
  | vectorTable => cases h; exact ⟨rfl, rfl⟩
  | place a ws => cases h; exact ⟨rfl, rfl⟩
  | inspect a count =>
    cases hws : inspectWords f.board a count.toNat with
    | error e =>
      rw [proc_inspect_of_error hws] at h
      cases h
    | ok ws =>
      rw [proc_inspect_of_ok hws] at h
      cases h
      exact ⟨rfl, rfl⟩
  | delay ms => cases h; exact ⟨rfl, rfl⟩

/-- **One service more.** -/
theorem GrownBy.service {ns : List UInt32} {f g : Firmware} (h : GrownBy ns f) {s : Service}
    {v : Value} (hs : s.proc f = (.returned v, g)) :
    GrownBy (ns ++ increments [s]) g ∧
      ∀ n, s = .grow n → v = .address (layout.bss.stop.above ns) := by
  cases hn : s.increment? with
  | none =>
    have hnone : increments [s] = [] := by simp [increments, hn]
    obtain ⟨hheap, horigin⟩ := Service.heap_eq hn hs
    rw [hnone, List.append_nil]
    refine ⟨h.congr hheap horigin, ?_⟩
    rintro n rfl
    cases hn
  | some n =>
    obtain rfl : s = .grow n := by
      cases s <;> cases hn
      rfl
    obtain ⟨g', hrun, hg'⟩ := h.grow n
    rw [hrun] at hs
    cases hs
    exact ⟨hg', fun _ _ => rfl⟩

/-! ## 2. Moments of a run -/

/-- **The account of the heap at a later moment of a run.**  The services on the way are the first of
the chain, one for each value. -/
theorem Reaches.grownBy {m later : Moment} {values : List Value} (h : Reaches m values later)
    {ns : List UInt32} (hm : GrownBy ns m.program) :
    GrownBy (ns ++ increments (m.chain.services.take values.length)) later.program ∧
      ∀ k n, k < values.length → m.chain.services[k]? = some (.grow n) →
        values[k]? = some (.address
          (layout.bss.stop.above (ns ++ increments (m.chain.services.take k)))) := by
  induction h generalizing ns with
  | here m =>
    refine ⟨?_, fun k n hk => absurd hk (Nat.not_lt_zero k)⟩
    rw [List.length_nil, List.take_zero, increments, List.filterMap_nil, List.append_nil]
    exact hm
  | @service level s rest f g v values later hservice _ ih =>
    obtain ⟨hg, hv⟩ := hm.service hservice
    obtain ⟨hlater, hvalues⟩ := ih hg
    have hchain : (Moment.mk level (.service s :: rest) f).chain.services =
        s :: (Moment.mk level rest g).chain.services := rfl
    rw [hchain]
    refine ⟨?_, fun k n hk hgrow => ?_⟩
    · rw [List.length_cons, List.take_succ_cons, increments_cons, ← List.append_assoc]
      exact hlater
    · cases k with
      | zero =>
        rw [List.getElem?_cons_zero] at hgrow
        rw [List.getElem?_cons_zero, hv n (Option.some.inj hgrow), List.take_zero, increments,
          List.filterMap_nil, List.append_nil]
      | succ k =>
        rw [List.getElem?_cons_succ] at hgrow
        rw [List.getElem?_cons_succ, List.take_succ_cons, increments_cons, ← List.append_assoc]
        exact hvalues k n (Nat.lt_of_succ_lt_succ hk) hgrow
  | @reset level main rest f ready values later hram _ ih =>
    have hkept := keptByAccess_memoryOnly.prepareRam layout f
    rw [hram] at hkept
    exact ih (hm.congr hkept.heap hkept.origin)

/-- A run whose accesses are good comes by all services of its chain. -/
theorem reaches_all_services {tasks : List Task} (f : Firmware)
    (hacc : ∀ a ∈ (chain .top tasks).accesses, Board.Accessible a) :
    ∃ values m, Reaches ⟨.top, tasks, f⟩ values m ∧
      values.length = (chain .top tasks).services.length := by
  obtain ⟨values, last, hreaches, hstopped⟩ := reaches_stop f hacc
  obtain ⟨services, hchain, hanswers, -⟩ := hreaches.chain_eq
  refine ⟨values, last, hreaches, ?_⟩
  rw [hstopped.chain_eq, List.append_nil] at hchain
  rw [← hanswers.length_eq]
  exact (congrArg (List.length ∘ Chain.services) hchain).symm

/-- The order of the growths does not matter to the heap they leave. -/
theorem GrownBy.heap_eq {ns ms : List UInt32} {f g : Firmware} (hf : GrownBy ns f)
    (hg : GrownBy ms g) (h : ms.Perm ns) : g.heap = f.heap := by
  have hnil : ms = [] ↔ ns = [] := by
    rw [← List.length_eq_zero_iff, h.length_eq, List.length_eq_zero_iff]
  have htop : g.heap.top = f.heap.top := by
    simp only [hg.top_eq, hf.top_eq, Address.above_perm _ h, hnil]
  exact congrArg Heap.mk htop

end Firmware

/-! ## 3. All heaps -/

/-- **No growth of any heap is lost, and none is counted twice.**  Whatever was asked of a pool, an
answer in the run is the answer of the pool that the requests before it led to.  The break of each heap
is the origin at its first growth plus all of its increments, modulo the size of the address space, and
there is none as long as it did not grow.  The origin was asked for once for each heap that grew.  The
next growth of a heap returns that sum, and no request changes a heap but its own growths.  Growths
that take turns in any other order leave the same pool.

The heap of a program is such a heap, with its origin at the end of the zeroed memory, at every moment
of every run: whatever services and resets the growths stand between. -/
theorem growths_add_up (a : Address) (past : List Pool.Request) :
    let d := Pool.diary a past
    let p := Pool.finish past (.new a)
    (∀ k, (Pool.run past (.new a))[k]? =
        past[k]?.map fun r => (Pool.finish (past.take k) (.new a)).step r) ∧
      p.tops = (List.range d.made).map (fun i => Growth.break? (d.ofHeap i)) ∧
      p.origin.consulted = d.grown.card ∧
      (∀ i n, i < d.made → (p.step (.grow i n)).1 =
        .grown ((Growth.base d.origin (d.ofHeap i)).above ((d.ofHeap i).map Growth.bytes))) ∧
      (∀ r j, j < d.made → (∀ n, r ≠ .grow j n) → (p.step r).2.heaps[j]? = p.heaps[j]?) ∧
      (∀ turns turns', turns.Perm turns' → (∀ r ∈ turns, ∃ i n, r = .grow i n) →
        Pool.finish (past ++ turns) (.new a) = Pool.finish (past ++ turns') (.new a)) ∧
      (∀ tasks values m, Firmware.Reaches ⟨.top, tasks, .fresh⟩ values m →
        let services := (Firmware.chain .top tasks).services
        let ns := Firmware.increments (services.take values.length)
        m.program.heap.top = (if ns = [] then none else some (Address.above ⟨0x20000028⟩ ns)) ∧
        m.program.origin.consulted = (if ns = [] then 0 else 1) ∧
        (∀ k n, k < values.length → services[k]? = some (.grow n) →
          values[k]? = some (.address
            (Address.above ⟨0x20000028⟩ (Firmware.increments (services.take k))))) ∧
        (Firmware.runTasks tasks .fresh).2 = values ++ m.run.2 ∧
        ∀ tasks' values' m', Firmware.Reaches ⟨.top, tasks', .fresh⟩ values' m' →
          (Firmware.increments
            ((Firmware.chain .top tasks').services.take values'.length)).Perm ns →
          m'.program.heap = m.program.heap) ∧
      ∀ tasks, (∀ a ∈ (Firmware.chain .top tasks).accesses, Board.Accessible a) →
        ∃ values m, Firmware.Reaches ⟨.top, tasks, .fresh⟩ values m ∧
          values.length = (Firmware.chain .top tasks).services.length := by
  intro d p
  have htells : d.Tells p := Pool.tells_finish a past
  refine ⟨Pool.getElem?_run past _, htells.tops_eq, htells.consulted, ?_, ?_, ?_, ?_, ?_⟩
  · intro i n hi
    rw [htells.step_grow hi]
  · intro r j hj hr
    exact Pool.heaps_step_frame hr (by rw [htells.size]; exact hj)
  · intro turns turns' hperm hgrow
    rw [Pool.finish_append, Pool.finish_append, Pool.finish_perm hperm hgrow]
  · intro tasks values m hreaches services ns
    obtain ⟨hgrown, hvalues⟩ := hreaches.grownBy Firmware.grownBy_fresh
    refine ⟨hgrown.top_eq, congrArg Origin.consulted hgrown.origin, hvalues, ?_, ?_⟩
    · rw [← Firmware.Moment.run_top, hreaches.run_eq]
    · intro tasks' values' m' hreaches' hperm
      obtain ⟨hgrown', -⟩ := hreaches'.grownBy Firmware.grownBy_fresh
      exact hgrown.heap_eq hgrown' hperm
  · intro tasks hacc
    exact Firmware.reaches_all_services _ hacc

/-- Two heaps of a pool: the second grew first, by no bytes, and wraps later; the first has another
origin.  And a program whose heap grows before and inside of a reset. -/
theorem growths_add_up_wrapped :
    let past : List Pool.Request :=
      [.add, .grow 1 0, .moveOrigin ⟨0x1000⟩, .grow 0 8, .grow 1 16]
    let p := Pool.finish past (.new ⟨0xfffffff8⟩)
    let tasks : List Firmware.Task :=
      [.service (.grow 16), .reset [.service (.delay 1), .service (.grow 4)]]
    p.tops = [some ⟨0x1008⟩, some ⟨8⟩] ∧
      p.origin.consulted = 2 ∧
      (p.step (.grow 1 4)).1 = .grown ⟨8⟩ ∧
      (p.step (.grow 1 4)).2.heaps[0]? = p.heaps[0]? ∧
      Pool.finish (past ++ [.grow 1 2, .grow 0 1]) (.new ⟨0xfffffff8⟩) =
        Pool.finish (past ++ [.grow 0 1, .grow 1 2]) (.new ⟨0xfffffff8⟩) ∧
      ∃ values m, Firmware.Reaches ⟨.top, tasks, .fresh⟩ values m ∧
        values[2]? = some (.address ⟨0x20000038⟩) ∧
        m.program.heap.top = some ⟨0x2000003c⟩ ∧
        m.program.origin.consulted = 1 := by
  intro past p tasks
  obtain ⟨-, htops, hconsulted, hnext, hframe, hturns, hprogram, hall⟩ :=
    growths_add_up ⟨0xfffffff8⟩ past
  obtain ⟨values, m, hreaches, hlen⟩ := hall tasks (by decide)
  obtain ⟨htop, hasked, hvalues, -⟩ := hprogram tasks values m hreaches
  have hthree : values.length = 3 := hlen
  rw [hthree] at htop hasked
  refine ⟨htops.trans (by decide), hconsulted.trans (by decide),
    (hnext 1 4 (by decide)).trans (by decide), hframe _ 0 (by decide) (by simp),
    hturns _ _ (List.Perm.swap _ _ []) (by simp), values, m, hreaches, ?_, htop.trans (by decide),
    hasked.trans (by decide)⟩
  exact (hvalues 2 4 (by omega) rfl).trans (by decide)

end StageZero
