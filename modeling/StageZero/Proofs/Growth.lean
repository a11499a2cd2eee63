/-
# Every growth of every heap

A heap keeps one address and nothing else.  Where it began is forgotten once it has grown, and so is
each single increment.  This file proves that nothing is lost with them: whatever is asked of a pool,
the break of each heap is the origin at the moment of its first growth, plus all that the heap was
ever grown by, modulo the size of the address space.

* **The diary** (`Pool.diary`) is kept from the requests alone: how many heaps there are, where the
  origin is, and for each growth which heap it was for, where the origin was then, and how many bytes
  were asked for.  No break is in it.
* **A growth** returns what the diary says up to now, and adds itself to it (`Heap.grow_break?`).
  The origin is asked for exactly if there was none before, also if that one was for no bytes.
* So a pool and its diary never come apart (`Diary.Tells.step`, `tells_finish`).
* **Growths commute** (`step_grow_comm`).  Clients that take turns in any order leave the same pool
  behind (`finish_perm`).
-/
import Mathlib.Algebra.GroupWithZero.Nat
import Mathlib.Data.Finset.Card
import Mathlib.Data.Finset.Lattice.Lemmas
import Mathlib.Data.List.Perm.Basic
import StageZero.Heap

namespace StageZero

/-! ## 1. Bytes above an address -/

/-- The bytes of several increments together. -/
def totalBytes (ns : List UInt32) : Nat := (ns.map UInt32.toNat).sum

@[simp] theorem totalBytes_nil : totalBytes [] = 0 := rfl

@[simp] theorem totalBytes_cons (n : UInt32) (ns : List UInt32) :
    totalBytes (n :: ns) = n.toNat + totalBytes ns := by
  simp [totalBytes]

@[simp] theorem totalBytes_append (ns ms : List UInt32) :
    totalBytes (ns ++ ms) = totalBytes ns + totalBytes ms := by
  simp [totalBytes]

/-- **The address that lies above `a` by all of these increments**, modulo the size of the address
space. -/
def Address.above (a : Address) (ns : List UInt32) : Address :=
  ⟨UInt32.ofNat (a.val.toNat + totalBytes ns)⟩

namespace Address

theorem toNat_above (a : Address) (ns : List UInt32) :
    (a.above ns).val.toNat = (a.val.toNat + totalBytes ns) % 4294967296 := by
  rw [above, UInt32.toNat_ofNat']

@[simp] theorem above_nil (a : Address) : a.above [] = a := by
  apply ext_toNat
  rw [toNat_above, totalBytes_nil, Nat.add_zero, Nat.mod_eq_of_lt (UInt32.toNat_lt a.val)]

/-- One increment more. -/
theorem above_concat (a : Address) (ns : List UInt32) (n : UInt32) :
    a.above (ns ++ [n]) = ⟨(a.above ns).val + n⟩ := by
  apply ext_toNat
  rw [toNat_above, UInt32.toNat_add, toNat_above, totalBytes_append, totalBytes_cons,
    totalBytes_nil]
  omega

/-- The order of the increments does not matter. -/
theorem above_perm (a : Address) {ns ms : List UInt32} (h : ns.Perm ms) :
    a.above ns = a.above ms := by
  have htotal : totalBytes ns = totalBytes ms := (h.map UInt32.toNat).sum_nat
  rw [above, above, htotal]

end Address

/-! ## 2. The growths of one heap -/

/-- A growth: which heap it was for, where the origin was then, and the bytes asked for. -/
structure Growth where
  heap : Nat
  origin : Address
  bytes : UInt32
deriving DecidableEq

namespace Growth

/-- Where a heap with these growths begins: at the origin of the first.  A heap without any would
begin at `o`. -/
def base (o : Address) (gs : List Growth) : Address := (gs.head?.map Growth.origin).getD o

/-- **Where the break is after these growths**, if there were any: above the base, by the bytes of
all of them. -/
def break? (gs : List Growth) : Option Address :=
  gs.head?.map fun g => g.origin.above (gs.map Growth.bytes)

theorem break?_of_ne_nil {gs : List Growth} (h : gs ≠ []) (o : Address) :
    break? gs = some ((base o gs).above (gs.map Growth.bytes)) := by
  cases gs with
  | nil => exact absurd rfl h
  | cons g gs => rfl

/-- A growth of a heap that has a base already leaves it there. -/
theorem break?_concat (gs : List Growth) (g : Growth) :
    break? (gs ++ [g]) = some ⟨((base g.origin gs).above (gs.map Growth.bytes)).val + g.bytes⟩ := by
  rw [← Address.above_concat]
  cases gs with
  | nil => rfl
  | cons f gs =>
    simp only [break?, base, List.cons_append, List.head?_cons, Option.map_some, Option.getD_some,
      List.map_cons, List.map_append, List.map_nil]

end Growth

/-- **One growth of one heap.**  It returns where the growths so far have led, and is the next of
them.  The origin is asked for if it is the first. -/
theorem Heap.grow_break? (gs : List Growth) (i : Nat) (n : UInt32) (o : Origin) :
    Heap.grow n o ⟨Growth.break? gs⟩ =
      ((Growth.base o.value gs).above (gs.map Growth.bytes),
        if gs = [] then o.consult.2 else o,
        ⟨Growth.break? (gs ++ [⟨i, o.value, n⟩])⟩) := by
  rw [Growth.break?_concat]
  cases gs with
  | nil =>
    simp only [Growth.base, List.map_nil, Address.above_nil]
    rfl
  | cons g gs => rfl

/-! ## 3. The diary of a pool -/

namespace Pool

/-- What was asked of a pool: how many heaps there are, where the origin is, and all growths, the
oldest first. -/
structure Diary where
  made : Nat
  origin : Address
  growths : List Growth

namespace Diary

/-- Notes a request.  Growths of heaps that are not there are not noted. -/
def post (d : Diary) : Request → Diary
  | .add => { d with made := d.made + 1 }
  | .moveOrigin a => { d with origin := a }
  | .grow i n =>
    if i < d.made then { d with growths := d.growths ++ [⟨i, d.origin, n⟩] } else d
  | .look => d

/-- The growths of one heap. -/
def ofHeap (d : Diary) (i : Nat) : List Growth := d.growths.filter (·.heap = i)

/-- The heaps that grew. -/
def grown (d : Diary) : Finset Nat := (d.growths.map Growth.heap).toFinset

theorem mem_grown_iff (d : Diary) (i : Nat) : i ∈ d.grown ↔ d.ofHeap i ≠ [] := by
  simp [grown, ofHeap, List.filter_eq_nil_iff]

theorem ofHeap_post_grow {d : Diary} {i : Nat} (hi : i < d.made) (n : UInt32) (j : Nat) :
    (d.post (.grow i n)).ofHeap j =
      if i = j then d.ofHeap j ++ [⟨i, d.origin, n⟩] else d.ofHeap j := by
  simp only [post, if_pos hi, ofHeap, List.filter_append, List.filter_singleton]
  by_cases hij : i = j
  · simp [hij]
  · simp [hij]

theorem card_grown_post_grow {d : Diary} {i : Nat} (hi : i < d.made) (n : UInt32) :
    (d.post (.grow i n)).grown.card =
      if d.ofHeap i = [] then d.grown.card + 1 else d.grown.card := by
  have hinsert : (d.post (.grow i n)).grown = insert i d.grown := by
    simp only [post, if_pos hi, grown, List.map_append, List.map_cons, List.map_nil,
      List.toFinset_append, List.toFinset_cons, List.toFinset_nil, insert_empty_eq]
    rw [Finset.union_comm]
    rfl
  rw [hinsert]
  by_cases h : d.ofHeap i = []
  · rw [if_pos h, Finset.card_insert_of_notMem fun hmem => (mem_grown_iff d i).mp hmem h]
  · rw [if_neg h, Finset.insert_eq_self.mpr ((mem_grown_iff d i).mpr h)]

end Diary

/-- **The diary of a pool** that began with one heap and its origin at `a`. -/
def diary (a : Address) (past : List Request) : Diary := past.foldl Diary.post ⟨1, a, []⟩

/-- **A diary tells what a pool is.**  There are as many heaps, the break of each is where its growths
have led, and the origin was asked for once for each heap that grew. -/
structure Diary.Tells (d : Diary) (p : Pool) : Prop where
  known : ∀ g ∈ d.growths, g.heap < d.made
  origin : p.origin.value = d.origin
  size : p.heaps.size = d.made
  heap : ∀ i < d.made, p.heaps[i]? = some ⟨Growth.break? (d.ofHeap i)⟩
  consulted : p.origin.consulted = d.grown.card

/-- A heap that is not there has no growths. -/
theorem Diary.Tells.ofHeap_made {d : Diary} {p : Pool} (h : d.Tells p) : d.ofHeap d.made = [] := by
  apply List.filter_eq_nil_iff.mpr
  intro g hg
  have hlt := h.known g hg
  simp only [decide_eq_true_eq]
  omega

theorem tells_new (a : Address) : (diary a []).Tells (new a) where
  known g hg := absurd hg List.not_mem_nil
  origin := rfl
  size := rfl
  heap i hi := by
    obtain rfl : i = 0 := Nat.lt_one_iff.mp hi
    rfl
  consulted := rfl

theorem step_grow {p : Pool} {h : Heap} {i : Nat} (hi : p.heaps[i]? = some h) (n : UInt32) :
    p.step (.grow i n) =
      (.grown (h.grow n p.origin).1,
        ⟨(h.grow n p.origin).2.1, p.heaps.setIfInBounds i (h.grow n p.origin).2.2⟩) := by
  simp only [step, hi]

theorem step_grow_none {p : Pool} {i : Nat} (hi : p.heaps[i]? = none) (n : UInt32) :
    p.step (.grow i n) = (.noHeap, p) := by
  simp only [step, hi]

/-- **What a growth returns, and the pool after it**, in the words of the diary. -/
theorem Diary.Tells.step_grow {d : Diary} {p : Pool} (h : d.Tells p) {i : Nat} (hi : i < d.made)
    (n : UInt32) :
    p.step (.grow i n) =
      (.grown ((Growth.base d.origin (d.ofHeap i)).above ((d.ofHeap i).map Growth.bytes)),
        ⟨if d.ofHeap i = [] then p.origin.consult.2 else p.origin,
          p.heaps.setIfInBounds i
            ⟨Growth.break? (d.ofHeap i ++ [⟨i, d.origin, n⟩])⟩⟩) := by
  rw [Pool.step_grow (h.heap i hi), Heap.grow_break? _ i, h.origin]

/-- A new heap has no growths yet. -/
theorem Diary.Tells.add {d : Diary} {p : Pool} (h : d.Tells p) :
    (d.post .add).Tells (p.step .add).2 where
  known g hg := Nat.lt_succ_of_lt (h.known g hg)
  origin := h.origin
  size := by simp only [Pool.step, Array.size_push, h.size, Diary.post]
  heap i hi := by
    simp only [Pool.step, Array.getElem?_push, h.size]
    by_cases hnew : i = d.made
    · have hnone : (d.post .add).ofHeap i = [] := by
        rw [hnew]
        exact h.ofHeap_made
      rw [if_pos hnew, hnone]
      rfl
    · rw [if_neg hnew]
      exact h.heap i (Nat.lt_of_le_of_ne (Nat.le_of_lt_succ hi) hnew)
  consulted := h.consulted

/-- A growth moves the break of its own heap, and asks for the origin if it is the first there. -/
theorem Diary.Tells.grow {d : Diary} {p : Pool} (h : d.Tells p) {i : Nat} (hi : i < d.made)
    (n : UInt32) : (d.post (.grow i n)).Tells (p.step (.grow i n)).2 := by
  have hpost : d.post (.grow i n) = { d with growths := d.growths ++ [⟨i, d.origin, n⟩] } :=
    if_pos hi
  have hmade : (d.post (.grow i n)).made = d.made := by rw [hpost]
  rw [h.step_grow hi]
  refine ⟨?_, ?_, ?_, fun j hj => ?_, ?_⟩
  · intro g hg
    rw [hpost, List.mem_append, List.mem_singleton] at hg
    rw [hmade]
    rcases hg with hg | rfl
    · exact h.known g hg
    · exact hi
  · rw [hpost]
    split
    · exact h.origin
    · exact h.origin
  · rw [hmade, Array.size_setIfInBounds, h.size]
  · rw [hmade] at hj
    rw [Array.getElem?_setIfInBounds, Diary.ofHeap_post_grow hi, h.size]
    by_cases hij : i = j
    · subst hij
      rw [if_pos rfl, if_pos rfl, if_pos hi]
    · rw [if_neg hij, if_neg hij, h.heap j hj]
  · rw [Diary.card_grown_post_grow hi]
    split
    · exact congrArg (· + 1) h.consulted
    · exact h.consulted

/-- **A pool and its diary stay together.** -/
theorem Diary.Tells.step {d : Diary} {p : Pool} (h : d.Tells p) (r : Request) :
    (d.post r).Tells (p.step r).2 := by
  cases r with
  | add => exact h.add
  | moveOrigin a => exact ⟨h.known, rfl, h.size, h.heap, h.consulted⟩
  | look => exact h
  | grow i n =>
    by_cases hi : i < d.made
    · exact h.grow hi n
    · have hnone : p.heaps[i]? = none := by
        rw [Array.getElem?_eq_none_iff, h.size]
        exact Nat.not_lt.mp hi
      rw [step_grow_none hnone, Diary.post, if_neg hi]
      exact h

/-! ## 4. Runs -/

/-- The pool that requests lead to. -/
def finish (rs : List Request) (p : Pool) : Pool := rs.foldl (fun p r => (p.step r).2) p

theorem finish_append (rs later : List Request) (p : Pool) :
    finish (rs ++ later) p = finish later (finish rs p) := List.foldl_append

/-- An answer in a run is the answer of the pool that the requests before it led to. -/
theorem getElem?_run (rs : List Request) (p : Pool) (k : Nat) :
    (run rs p)[k]? = rs[k]?.map fun r => (finish (rs.take k) p).step r := by
  induction rs generalizing p k with
  | nil => rfl
  | cons r rs ih =>
    cases k with
    | zero => rfl
    | succ k =>
      rw [run, List.getElem?_cons_succ, List.getElem?_cons_succ, ih, List.take_succ_cons]
      rfl

/-- **The diary of a pool tells what it is**, whatever was asked of it. -/
theorem tells_finish (a : Address) (past : List Request) :
    (diary a past).Tells (finish past (new a)) := by
  induction past using List.reverseRecOn with
  | nil => exact tells_new a
  | append_singleton past r ih =>
    have hdiary : diary a (past ++ [r]) = (diary a past).post r := List.foldl_concat ..
    rw [hdiary, finish_append]
    exact ih.step r

theorem Diary.Tells.tops_eq {d : Diary} {p : Pool} (h : d.Tells p) :
    p.tops = (List.range d.made).map fun i => Growth.break? (d.ofHeap i) := by
  apply List.ext_getElem?
  intro i
  rw [tops, List.getElem?_map, Array.getElem?_toList, List.getElem?_map]
  by_cases hi : i < d.made
  · rw [h.heap i hi, List.getElem?_range hi]
    rfl
  · rw [Array.getElem?_eq_none (by rw [h.size]; omega), List.getElem?_eq_none (by simp; omega)]
    rfl

/-! ## 5. Clients that take turns -/

theorem heaps_step_grow_frame (p : Pool) {i j : Nat} (hij : j ≠ i) (n : UInt32) :
    (p.step (.grow i n)).2.heaps[j]? = p.heaps[j]? := by
  cases hi : p.heaps[i]? with
  | none => rw [step_grow_none hi]
  | some h =>
    rw [step_grow hi]
    exact Array.getElem?_setIfInBounds_ne hij.symm

/-- **A request that does not grow a heap leaves it as it is.** -/
theorem heaps_step_frame {p : Pool} {r : Request} {j : Nat} (hr : ∀ n, r ≠ .grow j n)
    (hj : j < p.heaps.size) : (p.step r).2.heaps[j]? = p.heaps[j]? := by
  cases r with
  | add => exact Array.getElem?_push_lt hj |>.trans (Array.getElem?_eq_getElem hj).symm
  | moveOrigin a => rfl
  | look => rfl
  | grow i n =>
    apply heaps_step_grow_frame
    rintro rfl
    exact hr n rfl

/-- No heap comes into being by a growth. -/
theorem heaps_step_grow_none {p : Pool} {i : Nat} (hi : p.heaps[i]? = none) (j : Nat)
    (m : UInt32) : (p.step (.grow j m)).2.heaps[i]? = none := by
  by_cases hij : i = j
  · subst hij
    rw [step_grow_none hi, hi]
  · rw [heaps_step_grow_frame p hij, hi]

/-- The heap that a growth was for, afterwards. -/
theorem heaps_step_grow_self {p : Pool} {h : Heap} {i : Nat} (hi : p.heaps[i]? = some h)
    (n : UInt32) : (p.step (.grow i n)).2.heaps[i]? = some (h.grow n p.origin).2.2 := by
  obtain ⟨hlt, -⟩ := Array.getElem?_eq_some_iff.mp hi
  rw [step_grow hi]
  exact Array.getElem?_setIfInBounds_self_of_lt hlt

/-- **Growths commute.**  For one heap the bytes of both are added; for two heaps neither is in the
other's way, and the origin is asked for as often. -/
theorem step_grow_comm (p : Pool) (i j : Nat) (n m : UInt32) :
    ((p.step (.grow i n)).2.step (.grow j m)).2 = ((p.step (.grow j m)).2.step (.grow i n)).2 := by
  cases hi : p.heaps[i]? with
  | none => rw [step_grow_none hi, step_grow_none (heaps_step_grow_none hi j m)]
  | some h =>
    cases hj : p.heaps[j]? with
    | none => rw [step_grow_none hj, step_grow_none (heaps_step_grow_none hj i n)]
    | some h' =>
      by_cases hij : i = j
      · subst hij
        obtain rfl : h = h' := Option.some.inj (hi.symm.trans hj)
        rw [step_grow (heaps_step_grow_self hi n), step_grow (heaps_step_grow_self hi m),
          step_grow hi, step_grow hi]
        obtain ⟨top⟩ := h
        cases top <;>
          simp [Heap.grow, Heap.current, Origin.consult, UInt32.add_assoc, UInt32.add_comm n m]
      · have hi' := (heaps_step_grow_frame p hij m).trans hi
        have hj' := (heaps_step_grow_frame p (Ne.symm hij) n).trans hj
        rw [step_grow hi', step_grow hj', step_grow hi, step_grow hj]
        obtain ⟨top⟩ := h
        obtain ⟨top'⟩ := h'
        cases top <;> cases top' <;>
          simp [Heap.grow, Heap.current, Origin.consult, Array.setIfInBounds_comm _ _ hij]

/-- **The order of growths does not matter to the pool they leave.** -/
theorem finish_perm {gs gs' : List Request} (h : gs.Perm gs')
    (hgrow : ∀ r ∈ gs, ∃ i n, r = .grow i n) (p : Pool) : finish gs p = finish gs' p := by
  apply h.foldl_eq'
  intro x hx y hy q
  obtain ⟨i, n, rfl⟩ := hgrow x hx
  obtain ⟨j, m, rfl⟩ := hgrow y hy
  exact step_grow_comm q i j n m

end Pool

end StageZero
