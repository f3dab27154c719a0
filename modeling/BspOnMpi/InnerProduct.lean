import BspOnMpi.AbstractMachine
import BspOnMpi.Interleaving
import BspOnMpi.ContextImpl
import BspOnMpi.SharedArray
import BspOnMpi.Lib.Binary64
import Mathlib.Algebra.BigOperators.Intervals
import Mathlib.Algebra.Order.BigOperators.Group.Finset

/-! The inner product program. `bspinprod.c` of the examples: the processors get `n` from
processor 0, fill a vector that is distributed cyclically with `1, ..., n`, put their partial
inner products to everyone and add them up. The C type `double` is eight bytes with an arithmetic.
-/

namespace BspOnMpi.InnerProduct
open Lib Memreg Slots Machine AbstractMachine Interleaving
open Bspx hiding exec
open Contexts (intBytes readInt readInt_intBytes intBytes_length)
open Superstep (initWorld)

structure Doubles where
  ofInt : ℕ → List UInt8
  add : List UInt8 → List UInt8 → List UInt8
  mul : List UInt8 → List UInt8 → List UInt8
  ofInt_length : ∀ k, (ofInt k).length = 8
  add_length : ∀ x y, (add x y).length = 8
  mul_length : ∀ x y, (mul x y).length = 8

/-- Sums and products of natural numbers up to 2^53 are not rounded. -/
structure Doubles.Exact (d : Doubles) : Prop where
  add : ∀ a b, a + b ≤ 2 ^ 53 → d.add (d.ofInt a) (d.ofInt b) = d.ofInt (a + b)
  mul : ∀ a b, a * b ≤ 2 ^ 53 → d.mul (d.ofInt a) (d.ofInt b) = d.ofInt (a * b)

structure Variables where
  n : ℕ
  x : ℕ
  inprod : ℕ
  Inprod : ℕ
  alpha : ℕ

def Variables.readN (v : Variables) (mem : Mem) : ℕ := (readInt (load mem v.n 4)).toNat

def nloc (p s n : ℕ) : ℕ := (n + p - s - 1) / p

section Program

variable (d : Doubles) (p : ℕ) (vars : ℕ → Variables)

def scanInput (input s : ℕ) (mem : Mem) : Mem :=
  if s = 0 then store mem (vars s).n (intBytes input) else mem

def fill (s : ℕ) (mem : Mem) : Mem :=
  (List.range (nloc p s ((vars s).readN mem))).foldl
    (fun mem i => store mem ((vars s).x + 8 * i) (d.ofInt (i * p + s + 1))) mem

def localProduct (x y count : ℕ) (mem : Mem) : List UInt8 :=
  (List.range count).foldl
    (fun inprod i => d.add inprod (d.mul (load mem (x + 8 * i) 8) (load mem (y + 8 * i) 8)))
    (d.ofInt 0)

def total (array : ℕ) (mem : Mem) : List UInt8 :=
  (List.range p).foldl (fun alpha t => d.add alpha (load mem (array + 8 * t) 8)) (d.ofInt 0)

def storeProduct (x y : ℕ → ℕ) (s : ℕ) (mem : Mem) : Mem :=
  store mem (vars s).inprod (localProduct d (x s) (y s) (nloc p s ((vars s).readN mem)) mem)

def bspip (x y : ℕ → ℕ) : List (ℕ → List Op) :=
  [fun s => [.pushReg (vars s).Inprod],
    fun s => .compute (storeProduct d p vars x y s) ::
      (List.range p).map fun t => .put t (vars s).inprod (vars s).Inprod (s * 8 : ℕ) 8]

def bspipEnd (s : ℕ) : List Op :=
  [.compute fun mem => store mem (vars s).alpha (total d p (vars s).Inprod mem),
    .popReg (vars s).Inprod]

def vector (s : ℕ) : ℕ := (vars s).x

/-- Processor 0 aborts for a negative input. -/
def bspinprod (input : ℕ) : List (ℕ → List Op) :=
  [fun s => [.compute (scanInput vars input s), .pushReg (vars s).n],
    fun s => [.get 0 (vars s).n 0 (vars s).n 4],
    fun s => [.popReg (vars s).n, .compute (fill d p vars s)]] ++
  bspip d p vars (vector vars) (vector vars) ++ [bspipEnd d p vars]

end Program

theorem nloc_succ {p s : ℕ} (hs : s < p) (n : ℕ) :
    nloc p s (n + 1) = nloc p s n + if n % p = s then 1 else 0 := by
  have hp : 0 < p := Nat.zero_lt_of_lt hs
  have hmod : n % p < p := Nat.mod_lt n hp
  have hn := Nat.div_add_mod n p
  have hdiv : ∀ k, (p * (n / p) + k) / p = n / p + k / p := fun k => Nat.mul_add_div hp _ _
  have hold : n + p - s - 1 = p * (n / p) + (n % p + p - s - 1) := by omega
  have hnew : n + 1 + p - s - 1 = p * (n / p) + (n % p + p - s) := by omega
  rw [nloc, nloc, hold, hnew, hdiv, hdiv]
  have hzero : ∀ k, k < p → k / p = 0 := fun k hk => Nat.div_eq_of_lt hk
  have hone : ∀ k, p ≤ k → k < 2 * p → k / p = 1 := fun k h1 h2 =>
    Nat.div_eq_of_lt_le (by omega) (by omega)
  rcases Nat.lt_trichotomy (n % p) s with hlt | heq | hgt
  · rw [if_neg (by omega), hzero (n % p + p - s) (by omega), hzero (n % p + p - s - 1) (by omega)]
  · rw [if_pos heq, hone (n % p + p - s) (by omega) (by omega),
      hzero (n % p + p - s - 1) (by omega)]
  · rw [if_neg (by omega), hone (n % p + p - s) (by omega) (by omega),
      hone (n % p + p - s - 1) (by omega) (by omega)]

theorem nloc_mod {p : ℕ} (hp : 0 < p) (n : ℕ) : nloc p (n % p) n = n / p := by
  have hmod : n % p < p := Nat.mod_lt n hp
  have hn := Nat.div_add_mod n p
  have hlast : (p - 1) / p = 0 := Nat.div_eq_of_lt (by omega)
  rw [nloc, show n + p - n % p - 1 = p * (n / p) + (p - 1) by omega, Nat.mul_add_div hp, hlast,
    Nat.add_zero]

theorem sum_cyclic (f : ℕ → ℕ) {p : ℕ} (hp : 0 < p) (n : ℕ) :
    ∑ s ∈ Finset.range p, ∑ i ∈ Finset.range (nloc p s n), f (i * p + s) =
      ∑ k ∈ Finset.range n, f k := by
  induction n with
  | zero =>
    apply Finset.sum_eq_zero
    intro s hs
    have hzero : nloc p s 0 = 0 := Nat.div_eq_of_lt (by have := Finset.mem_range.mp hs; omega)
    rw [hzero, Finset.sum_range_zero]
  | succ n ih =>
    have hstep : ∀ s ∈ Finset.range p, ∑ i ∈ Finset.range (nloc p s (n + 1)), f (i * p + s) =
        ∑ i ∈ Finset.range (nloc p s n), f (i * p + s) + if n % p = s then f n else 0 := by
      intro s hs
      rw [nloc_succ (Finset.mem_range.mp hs)]
      split
      · rename_i hmod
        rw [Finset.sum_range_succ, ← hmod, nloc_mod hp, Nat.div_add_mod' n p]
      · rfl
    rw [Finset.sum_congr rfl hstep, Finset.sum_add_distrib, ih, Finset.sum_range_succ,
      Finset.sum_ite_eq, if_pos (Finset.mem_range.mpr (Nat.mod_lt n hp))]

theorem sum_squares (n : ℕ) :
    ∑ k ∈ Finset.range n, (k + 1) * (k + 1) = n * (n + 1) * (2 * n + 1) / 6 := by
  have hsix : 6 * ∑ k ∈ Finset.range n, (k + 1) * (k + 1) = n * (n + 1) * (2 * n + 1) := by
    induction n with
    | zero => rfl
    | succ n ih =>
      rw [Finset.sum_range_succ, Nat.mul_add, ih]
      ring
  omega

theorem load_array {f : ℕ → List UInt8} (hf : ∀ i, (f i).length = 8) (a count : ℕ) (mem : Mem) :
    (∀ i < count, load (writeAll mem ((List.range count).map fun i => (a + 8 * i, f i)))
      (a + 8 * i) 8 = f i) ∧
    ∀ b k, b + k ≤ a ∨ a + 8 * count ≤ b →
      load (writeAll mem ((List.range count).map fun i => (a + 8 * i, f i))) b k =
        load mem b k := by
  induction count with
  | zero => exact ⟨fun i hi => absurd hi (Nat.not_lt_zero i), fun _ _ _ => rfl⟩
  | succ count ih =>
    obtain ⟨hin, hout⟩ := ih
    rw [List.range_succ, List.map_append, List.map_singleton, writeAll_append, writeAll_cons,
      writeAll_nil]
    generalize writeAll mem ((List.range count).map fun i => (a + 8 * i, f i)) = m at hin hout
    have hlen := hf count
    refine ⟨fun i hi => ?_, fun b k hb => ?_⟩
    · rcases Nat.lt_or_eq_of_le (Nat.le_of_lt_succ hi) with hlt | rfl
      · rw [load_store_disjoint _ _ (by rw [hlen]; omega)]
        exact hin i hlt
      · have hsame := load_store_same m (a + 8 * i) (f i)
        rwa [hlen] at hsame
    · rw [load_store_disjoint _ _ (by rw [hlen]; omega)]
      exact hout b k (by omega)

section Arithmetic

variable {d : Doubles} (hd : d.Exact)

include hd

theorem foldl_add {term : ℕ → List UInt8} {g : ℕ → ℕ} {count : ℕ}
    (hterm : ∀ i < count, term i = d.ofInt (g i)) (hle : ∑ i ∈ Finset.range count, g i ≤ 2 ^ 53) :
    (List.range count).foldl (fun sum i => d.add sum (term i)) (d.ofInt 0) =
      d.ofInt (∑ i ∈ Finset.range count, g i) := by
  induction count with
  | zero => rfl
  | succ count ih =>
    rw [Finset.sum_range_succ] at hle
    rw [List.range_succ, List.foldl_append, List.foldl_cons, List.foldl_nil, Finset.sum_range_succ,
      ih (fun i hi => hterm i (by omega)) (by omega), hterm count (Nat.lt_succ_self count),
      hd.add _ _ hle]

theorem localProduct_eq {x y count : ℕ} {mem : Mem} {g h : ℕ → ℕ}
    (hx : ∀ i < count, load mem (x + 8 * i) 8 = d.ofInt (g i))
    (hy : ∀ i < count, load mem (y + 8 * i) 8 = d.ofInt (h i))
    (hle : ∑ i ∈ Finset.range count, g i * h i ≤ 2 ^ 53) :
    localProduct d x y count mem = d.ofInt (∑ i ∈ Finset.range count, g i * h i) := by
  refine foldl_add hd (fun i hi => ?_) hle
  have hterm := Finset.single_le_sum (f := fun i => g i * h i) (fun _ _ => Nat.zero_le _)
    (Finset.mem_range.mpr hi)
  rw [hx i hi, hy i hi, hd.mul _ _ (hterm.trans hle)]

end Arithmetic

structure At (p : ℕ) (rows : List Row) (mem : ℕ → Mem) (a : ℕ → Processor) : Prop where
  mem : ∀ q < p, (a q).mem = mem q
  rows : ∀ q < p, (a q).rows = rows
  tagSize : ∀ q < p, (a q).sendTagSize = 0
  calls : ∀ q < p, (a q).calls = []

section Superstep

variable {p : ℕ} {rows : List Row} {mem mem' : ℕ → Mem} {a : ℕ → Processor} {ops : ℕ → List Op}
  {cs : ℕ → List Call}

theorem at_superstep (h : At p rows mem a)
    (hrun : ∀ s < p, run (exec p s) (ops s) (a s) = some { a s with mem := mem' s, calls := cs s })
    (hpush : ∀ s, (pushes (cs s)).length = (pushes (cs 0)).length)
    (hpop : ∀ s < p, Poppable s (rows ++ newRows p cs) (pops (cs s)))
    (htag : ∀ s, tagSizes (cs s) = []) (rows' : List Row)
    (hrows : ∀ q < p, rowsAfter p cs rows q = rows') :
    ∃ a', superstep p ops a = some a' ∧ At p rows' (memAfter p cs mem') a' := by
  obtain ⟨a', ha', hbar⟩ := superstep_rule hrun
    ⟨fun s _ => hpush s, fun s hs => by rw [h.rows s hs]; exact hpop s hs,
      fun s hs => by rw [h.tagSize s hs, h.tagSize 0 (Nat.zero_lt_of_lt hs)]⟩
  refine ⟨a', ha', fun q hq => ?_, fun q hq => ?_, fun q hq => ?_, fun q hq => ?_⟩
  · rw [hbar q hq]
    rfl
  · rw [hbar q hq, ← hrows q hq, ← h.rows q hq]
    rfl
  · rw [hbar q hq]
    show tagAfter (a q).sendTagSize (cs q) = 0
    rw [tagAfter, htag, h.tagSize q hq]
    rfl
  · rw [hbar q hq]
    rfl

theorem memAfter_quiet (hput : ∀ s q, putsTo q (cs s) = [])
    (hget : ∀ s q m, answersOf s m (cs q) = []) :
    memAfter p cs mem = mem := by
  funext q
  have hnil : writesTo p cs mem q = [] := by
    rw [writesTo, List.flatMap_eq_nil_iff]
    intro s _
    rw [hput, hget, List.append_nil]
  rw [memAfter, hnil, writeAll_nil]

variable {address : ℕ → ℕ}

theorem lastRow_single {s : ℕ} (hs : s < p) :
    lastRow [below p address] s (address s) = some (below p address) := by
  simp [lastRow, below, hs]

variable {f : ℕ → Mem → Mem}

theorem run_at (h : At p rows mem a)
    (hrun : ∀ s b, run (exec p s) (ops s) b =
      some { b with mem := f s b.mem, calls := b.calls ++ cs s }) :
    ∀ s < p, run (exec p s) (ops s) (a s) =
      some { a s with mem := f s (mem s), calls := cs s } := by
  intro s hs
  rw [hrun, h.mem s hs, h.calls s hs, List.nil_append]

theorem push_superstep (h : At p [] mem a)
    (hrun : ∀ s b, run (exec p s) (ops s) b =
      some { b with mem := f s b.mem, calls := b.calls ++ [.pushReg (address s)] }) :
    ∃ a', superstep p ops a = some a' ∧ At p [below p address] (fun s => f s (mem s)) a' := by
  obtain ⟨a', ha', hat⟩ := at_superstep h (run_at h hrun) (fun _ => rfl) (fun _ _ => trivial)
    (fun _ => rfl) [below p address] fun _ _ => rfl
  rw [memAfter_quiet (fun _ _ => rfl) fun _ _ _ => rfl] at hat
  exact ⟨a', ha', hat⟩

theorem pop_superstep (h : At p [below p address] mem a)
    (hrun : ∀ s b, run (exec p s) (ops s) b =
      some { b with mem := f s b.mem, calls := b.calls ++ [.popReg (address s)] }) :
    ∃ a', superstep p ops a = some a' ∧ At p [] (fun s => f s (mem s)) a' := by
  have hmem : ∀ s < p, below p address s = address s := fun s hs => if_pos hs
  obtain ⟨a', ha', hat⟩ := at_superstep h (run_at h hrun) (fun _ => rfl)
    (fun s hs => ⟨⟨_, List.mem_singleton_self _, hmem s hs⟩, trivial⟩) (fun _ => rfl)
    [] fun q hq => by
      simp [rowsAfter, newRows, pushes, pops, popRows, eraseLast, hmem q hq]
  rw [memAfter_quiet (fun _ _ => rfl) fun _ _ _ => rfl] at hat
  exact ⟨a', ha', hat⟩

theorem get_superstep (h : At p [below p address] mem a)
    (hops : ∀ s, ops s = [.get 0 (address s) 0 (address s) 4]) :
    ∃ a', superstep p ops a = some a' ∧ At p [below p address]
      (fun s => store (mem s) (address s) (load (mem 0) (address 0) 4)) a' := by
  have hbase : ∀ s < p, addOffset (below p address 0) 0 = address 0 := fun s hs => by
    simp [below, addOffset, Nat.zero_lt_of_lt hs]
  have hrun : ∀ s < p, run (exec p s) (ops s) (a s) = some { a s with
      mem := mem s, calls := [.get 0 (below p address 0) 0 (address s) 4] } := by
    intro s hs
    have hreg : (a s).translate s 0 (address s) = some (below p address 0) := by
      rw [Processor.translate, h.rows s hs, lastRow_single hs]
      rfl
    rw [hops, run, AbstractMachine.exec,
      if_pos ⟨Nat.zero_lt_of_lt hs, by decide, by decide, by decide⟩, hreg, ← h.mem s hs]
    simp only [Option.map_some, Option.bind_some, run, Processor.queue, h.calls s hs,
      List.nil_append]
  obtain ⟨a', ha', hat⟩ := at_superstep h hrun (fun _ => rfl) (fun _ _ => trivial) (fun _ => rfl)
    [below p address] fun _ _ => rfl
  refine ⟨a', ha', fun q hq => ?_, hat.rows, hat.tagSize, hat.calls⟩
  rw [hat.mem q hq, memAfter]
  have hwrites : writesTo p (fun s => [.get 0 (below p address 0) 0 (address s) 4]) mem q =
      [(address q, load (mem 0) (address 0) 4)] := by
    rw [writesTo, flatMap_only (Nat.zero_lt_of_lt hq)]
    · simp [putsTo, answersOf, hbase q hq]
    · intro s _ hs
      simp [putsTo, answersOf, Ne.symm hs]
  rw [hwrites, writeAll_cons, writeAll_nil]

theorem run_puts {s : ℕ} {b : Processor} {r : Row} {src dst : ℕ} {offset : ℤ}
    (hr : lastRow b.rows s dst = some r) {k : ℕ} (hk : k ≤ p) :
    run (exec p s) ((List.range k).map fun t => .put t src dst offset 8) b =
      some { b with calls := b.calls ++
        (List.range k).map fun t => .put t (addOffset (r t) offset) (load b.mem src 8) } := by
  induction k with
  | zero => simp [run]
  | succ k ih =>
    have hreg : ∀ c : Processor, c.rows = b.rows → c.translate s k dst = some (r k) := by
      intro c hc
      rw [Processor.translate, hc, hr]
      rfl
    rw [List.range_succ, List.map_append, List.map_append, run_append, ih (by omega),
      Option.bind_some, List.map_singleton, List.map_singleton, run, AbstractMachine.exec,
      if_pos ⟨show k < p by omega, by decide⟩, hreg]
    · simp only [Option.map_some, Option.bind_some, run, Processor.queue, List.append_assoc]
    · rfl

theorem putsTo_all (dst : ℕ → ℕ) (bytes : List UInt8) {q : ℕ} (hq : q < p) :
    putsTo q ((List.range p).map fun t => .put t (dst t) bytes) = [(dst q, bytes)] := by
  have honly : (List.range p).flatMap (fun t => putsTo q [.put t (dst t) bytes]) =
      putsTo q [.put q (dst q) bytes] :=
    flatMap_only hq fun t _ ht => by simp [putsTo, ht]
  have hsplit : putsTo q ((List.range p).map fun t => .put t (dst t) bytes) =
      (List.range p).flatMap fun t => putsTo q [.put t (dst t) bytes] := by
    rw [putsTo, List.filterMap_map, List.filterMap_eq_flatMap_toList]
    apply List.flatMap_congr
    intro t _
    by_cases ht : t = q <;> simp [putsTo, ht]
  rw [hsplit, honly]
  simp [putsTo]

def putCalls (p : ℕ) (address : ℕ → ℕ) (s : ℕ) (bytes : List UInt8) : List Call :=
  (List.range p).map fun t => .put t (addOffset (below p address t) (s * 8 : ℕ)) bytes

theorem putCalls_none {β : Type} {g : Call → Option β}
    (hg : ∀ t dst bytes, g (.put t dst bytes) = none)
    (s : ℕ) (bytes : List UInt8) : (putCalls p address s bytes).filterMap g = [] := by
  rw [putCalls, List.filterMap_map, List.filterMap_eq_nil_iff]
  exact fun t _ => hg _ _ _

theorem putCalls_to {q : ℕ} (hq : q < p) (s : ℕ) (bytes : List UInt8) :
    putsTo q (putCalls p address s bytes) = [(address q + 8 * s, bytes)] := by
  have hplace : addOffset (below p address q) (s * 8 : ℕ) = address q + 8 * s := by
    simp only [below, if_pos hq, addOffset]
    omega
  rw [putCalls, putsTo_all _ _ hq, hplace]

theorem exchange_superstep (h : At p [below p address] mem a) {src : ℕ → ℕ}
    (hops : ∀ s, ops s = .compute (f s) ::
      (List.range p).map fun t => .put t (src s) (address s) (s * 8 : ℕ) 8) :
    ∃ a', superstep p ops a = some a' ∧ At p [below p address] (fun q =>
      writeAll (f q (mem q))
        ((List.range p).map fun s => (address q + 8 * s, load (f s (mem s)) (src s) 8))) a' := by
  let bytes := fun s => load (f s (mem s)) (src s) 8
  have hrun : ∀ s < p, run (exec p s) (ops s) (a s) = some { a s with
      mem := f s (mem s), calls := putCalls p address s (bytes s) } := by
    intro s hs
    have hrow : lastRow (a s).rows s (address s) = some (below p address) := by
      rw [h.rows s hs]
      exact lastRow_single hs
    rw [hops, run, AbstractMachine.exec, Option.bind_some,
      run_puts (b := { a s with mem := f s (a s).mem }) hrow le_rfl, h.mem s hs]
    simp only [h.calls s hs, List.nil_append, putCalls, bytes]
  have hpush : ∀ s, pushes (putCalls p address s (bytes s)) = [] :=
    fun s => putCalls_none (fun _ _ _ => rfl) s _
  have hpop : ∀ s, pops (putCalls p address s (bytes s)) = [] :=
    fun s => putCalls_none (fun _ _ _ => rfl) s _
  obtain ⟨a', ha', hat⟩ := at_superstep h hrun (fun s => by rw [hpush, hpush])
    (fun s _ => by rw [hpop]; trivial) (fun s => putCalls_none (fun _ _ _ => rfl) s _)
    [below p address]
    fun q _ => by rw [rowsAfter, newRows, hpush, hpop]; rfl
  refine ⟨a', ha', fun q hq => ?_, hat.rows, hat.tagSize, hat.calls⟩
  have hwrites : ∀ s ∈ List.range p, putsTo q (putCalls p address s (bytes s)) ++
      answersOf s (f s (mem s)) (putCalls p address q (bytes q)) =
        [(address q + 8 * s, bytes s)] := by
    intro s _
    rw [putCalls_to hq, answersOf, putCalls_none (fun _ _ _ => rfl), List.append_nil]
  rw [hat.mem q hq, memAfter, writesTo, List.flatMap_congr hwrites, List.map_eq_flatMap]

end Superstep

section Program

variable {d : Doubles} {p : ℕ} {vars : ℕ → Variables} {input : ℕ}

def Beside (p input s : ℕ) (v : Variables) : Prop :=
  v.n + 4 ≤ v.x ∨ v.x + 8 * nloc p s input ≤ v.n

def component (p s i : ℕ) : ℕ := i * p + s + 1

theorem readN_input (v : Variables) (hin : input < 2 ^ 31) {mem : Mem}
    (h : load mem v.n 4 = intBytes input) : v.readN mem = input := by
  rw [Variables.readN, h, readInt_intBytes hin, Int.toNat_natCast]

theorem fill_spec {s : ℕ} {mem : Mem} (hin : input < 2 ^ 31)
    (hn : load mem (vars s).n 4 = intBytes input) (hbeside : Beside p input s (vars s)) :
    (∀ i < nloc p s input, load (fill d p vars s mem) ((vars s).x + 8 * i) 8 =
      d.ofInt (component p s i)) ∧ load (fill d p vars s mem) (vars s).n 4 = intBytes input := by
  have hfill : fill d p vars s mem = writeAll mem ((List.range (nloc p s input)).map fun i =>
      ((vars s).x + 8 * i, d.ofInt (component p s i))) := by
    rw [fill, readN_input _ hin hn, writeAll, List.foldl_map]
    rfl
  obtain ⟨helements, hother⟩ := load_array (fun i => d.ofInt_length (component p s i)) (vars s).x
    (nloc p s input) mem
  rw [hfill]
  exact ⟨helements, (hother _ _ hbeside).trans hn⟩

def partialProduct (p input s : ℕ) : ℕ :=
  ∑ i ∈ Finset.range (nloc p s input), component p s i * component p s i

theorem partialProduct_sum (hp : 0 < p) :
    ∑ s ∈ Finset.range p, partialProduct p input s = input * (input + 1) * (2 * input + 1) / 6 := by
  have hcyclic := sum_cyclic (fun k => (k + 1) * (k + 1)) hp input
  rw [sum_squares] at hcyclic
  exact hcyclic

theorem partialProduct_le (hp : 0 < p) {s : ℕ} (hs : s < p) :
    partialProduct p input s ≤ input * (input + 1) * (2 * input + 1) / 6 := by
  rw [← partialProduct_sum hp]
  exact Finset.single_le_sum (f := fun s => partialProduct p input s) (fun _ _ => Nat.zero_le _)
    (Finset.mem_range.mpr hs)

theorem load_store_eq {mem : Mem} {a k : ℕ} {xs : List UInt8} (h : xs.length = k) :
    load (store mem a xs) a k = xs := by
  subst h
  exact load_store_same mem a xs

def filled (d : Doubles) (p : ℕ) (vars : ℕ → Variables) (input : ℕ) (mem : ℕ → Mem) (s : ℕ) : Mem :=
  let scanned := fun s => scanInput vars input s (mem s)
  fill d p vars s (store (scanned s) (vars s).n (load (scanned 0) (vars 0).n 4))

theorem filled_spec (hin : input < 2 ^ 31) (mem : ℕ → Mem) {s : ℕ}
    (hbeside : Beside p input s (vars s)) :
    (∀ i < nloc p s input, load (filled d p vars input mem s) ((vars s).x + 8 * i) 8 =
      d.ofInt (component p s i)) ∧
      load (filled d p vars input mem s) (vars s).n 4 = intBytes input := by
  have hscan : load (scanInput vars input 0 (mem 0)) (vars 0).n 4 = intBytes input := by
    rw [scanInput, if_pos rfl]
    exact load_store_eq (intBytes_length input)
  refine fill_spec hin ?_ hbeside
  rw [hscan]
  exact load_store_eq (intBytes_length input)

theorem storeProduct_spec (hd : d.Exact) (hin : input < 2 ^ 31) {s : ℕ}
    (hle : partialProduct p input s ≤ 2 ^ 53) (hbeside : Beside p input s (vars s))
    (mem : ℕ → Mem) :
    load (storeProduct d p vars (vector vars) (vector vars) s (filled d p vars input mem s))
        (vars s).inprod 8 =
      d.ofInt (partialProduct p input s) := by
  obtain ⟨hx, hn⟩ := filled_spec (d := d) hin mem hbeside
  rw [storeProduct, readN_input _ hin hn, vector, localProduct_eq hd hx hx hle]
  exact load_store_eq (d.ofInt_length _)

def multiplied (d : Doubles) (p : ℕ) (vars : ℕ → Variables) (input : ℕ) (mem : ℕ → Mem)
    (s : ℕ) : Mem :=
  storeProduct d p vars (vector vars) (vector vars) s (filled d p vars input mem s)

def product (d : Doubles) (p : ℕ) (vars : ℕ → Variables) (input : ℕ) (mem : ℕ → Mem)
    (s : ℕ) : List UInt8 :=
  load (multiplied d p vars input mem s) (vars s).inprod 8

def gathered (d : Doubles) (p : ℕ) (vars : ℕ → Variables) (input : ℕ) (mem : ℕ → Mem)
    (s : ℕ) : Mem :=
  writeAll (multiplied d p vars input mem s)
    ((List.range p).map fun t => ((vars s).Inprod + 8 * t, product d p vars input mem t))

theorem bspinprod_run (hd : d.Exact) (hp : 0 < p) (hin : input < 2 ^ 31)
    (hle : input * (input + 1) * (2 * input + 1) / 6 ≤ 2 ^ 53)
    (hbeside : ∀ s < p, Beside p input s (vars s)) (mem : ℕ → Mem)
    (globalArrays : ℕ → ℕ → GlobalArray) :
    ∃ a, run (superstep p) (bspinprod d p vars input) (initial mem globalArrays) = some a ∧
      ∀ s < p, load (a s).mem (vars s).alpha 8 =
        d.ofInt (input * (input + 1) * (2 * input + 1) / 6) := by
  have h₀ : At p [] mem (initial mem globalArrays) :=
    ⟨fun _ _ => rfl, fun _ _ => rfl, fun _ _ => rfl, fun _ _ => rfl⟩
  -- one step for every synchronisation of the source
  obtain ⟨a₁, hrun₁, h₁⟩ : ∃ a₁, superstep p
      (fun s => [.compute (scanInput vars input s), .pushReg (vars s).n])
        (initial mem globalArrays) =
        some a₁ ∧ At p [below p fun s => (vars s).n] (fun s => scanInput vars input s (mem s)) a₁ :=
    push_superstep h₀ fun _ _ => rfl
  obtain ⟨a₂, hrun₂, h₂⟩ := get_superstep h₁ fun _ => rfl
  obtain ⟨a₃, hrun₃, h₃⟩ : ∃ a₃, superstep p
      (fun s => [.popReg (vars s).n, .compute (fill d p vars s)]) a₂ = some a₃ ∧
        At p [] (filled d p vars input mem) a₃ :=
    pop_superstep (f := fill d p vars) h₂ fun _ _ => rfl
  obtain ⟨a₄, hrun₄, h₄⟩ : ∃ a₄, superstep p (fun s => [.pushReg (vars s).Inprod]) a₃ = some a₄ ∧
      At p [below p fun s => (vars s).Inprod] (filled d p vars input mem) a₄ :=
        push_superstep (f := fun _ m => m) h₃ fun _ _ => rfl
  obtain ⟨a₅, hrun₅, h₅⟩ : ∃ a₅, superstep p (fun s =>
      .compute (storeProduct d p vars (vector vars) (vector vars) s) ::
      (List.range p).map fun t => .put t (vars s).inprod (vars s).Inprod (s * 8 : ℕ) 8) a₄ =
        some a₅ ∧ At p [below p fun s => (vars s).Inprod] (gathered d p vars input mem) a₅ :=
    exchange_superstep h₄ fun _ => rfl
  obtain ⟨a₆, hrun₆, h₆⟩ : ∃ a₆, superstep p (bspipEnd d p vars) a₅ = some a₆ ∧ At p []
      (fun s => store (gathered d p vars input mem s) (vars s).alpha
        (total d p (vars s).Inprod (gathered d p vars input mem s))) a₆ :=
    pop_superstep (f := fun s m => store m (vars s).alpha (total d p (vars s).Inprod m)) h₅
      fun _ _ => rfl
  refine ⟨a₆, ?_, fun s hs => ?_⟩
  · simp only [bspinprod, bspip, List.cons_append, List.nil_append, run, hrun₁, hrun₂, hrun₃, hrun₄,
      hrun₅, hrun₆, Option.bind_some]
  · have hparts : ∀ t < p, product d p vars input mem t = d.ofInt (partialProduct p input t) :=
      fun t ht => storeProduct_spec hd hin ((partialProduct_le hp ht).trans hle) (hbeside t ht) mem
    have harray := (load_array (f := product d p vars input mem) (fun t => load_length _ _ _)
      (vars s).Inprod p (multiplied d p vars input mem s)).1
    have htotal : total d p (vars s).Inprod (gathered d p vars input mem s) = d.ofInt _ :=
      foldl_add hd (fun t ht => (harray t ht).trans (hparts t ht))
        (by rw [partialProduct_sum hp]; exact hle)
    rw [partialProduct_sum hp] at htotal
    rw [h₆.mem s hs, htotal]
    exact load_store_eq (d.ofInt_length _)

/-- Every interleaving of the program ends, and leaves n(n+1)(2n+1)/6 in the `alpha` of every
processor, whatever the processors, the allocator and the communicator do. -/
theorem bspinprod_correct (hd : d.Exact) (hp : 0 < p) (hin : input + p < 2 ^ 31)
    (hle : input * (input + 1) * (2 * input + 1) / 6 ≤ 2 ^ 53)
    (hbeside : ∀ s < p, Beside p input s (vars s)) (alloc : ℕ → Alloc)
    (globalArrays : ℕ → ℕ → GlobalArray) (mem : ℕ → Mem) (stack : ℕ → ℕ) (also : ℕ → ℕ → Bool) :
    ∃ steps, ∀ ps c, run (fire p (next also)) ps
        (start (bspinprod d p vars input) (initWorld alloc globalArrays mem stack p)) = some c →
      ∃ qs c', (ps ++ qs).length = steps ∧ run (fire p (next also)) qs c = some c' ∧
        ∀ s < p, (c' s).state.stage = .finished ∧ load (c' s).state.proc.mem (vars s).alpha 8 =
          d.ofInt (input * (input + 1) * (2 * input + 1) / 6) := by
  obtain ⟨a, ha, halpha⟩ := bspinprod_run hd hp (by omega) hle hbeside mem globalArrays
  obtain ⟨w, hw, hrep, -⟩ := run_refines (init_represented alloc globalArrays mem stack p) ha
  have hs : ∀ s < p, Sized p (initWorld alloc globalArrays mem stack p s).bsp :=
    fun _ _ => ⟨rfl, rfl, rfl⟩
  obtain ⟨ks, final, hlead, hfinal⟩ := program_at also (start_at _) hs hw
  obtain ⟨steps, hagree⟩ := schedules_agree hlead hfinal fun _ _ => rfl
  refine ⟨steps, fun ps c hps => ?_⟩
  obtain ⟨⟨qs, c', hlen, hqs, hstate⟩, -⟩ := hagree ps c hps
  refine ⟨qs, c', hlen, hqs, fun s hs => ?_⟩
  rw [hstate s hs]
  exact ⟨rfl, (congrArg (load · (vars s).alpha 8) (hrep s hs).mem).trans (halpha s hs)⟩

end Program

section Example

open SharedArray (sizeBytes sizeBytes_length)

def toNat (bytes : List UInt8) : ℕ :=
  Binary64.decode (bytes.foldr (fun b n => b.toNat + 256 * n) 0)

/-- The type `double` for natural numbers: IEEE 754 binary64 in little-endian order. -/
def binary64 : Doubles where
  ofInt k := sizeBytes (Binary64.encode k)
  add x y := sizeBytes (Binary64.encode (toNat x + toNat y))
  mul x y := sizeBytes (Binary64.encode (toNat x * toNat y))
  ofInt_length _ := sizeBytes_length _
  add_length _ _ := sizeBytes_length _
  mul_length _ _ := sizeBytes_length _

theorem toNat_ofInt {k : ℕ} (hk : k ≤ 2 ^ 53) : toNat (binary64.ofInt k) = k := by
  have hbits := Binary64.encode_lt hk
  have hword : (sizeBytes (Binary64.encode k)).foldr (fun b n => b.toNat + 256 * n) 0 =
      Binary64.encode k := by
    simp [sizeBytes, List.range_succ]
    omega
  show Binary64.decode ((sizeBytes (Binary64.encode k)).foldr (fun b n => b.toNat + 256 * n) 0) = k
  rw [hword, Binary64.decode_encode hk]

theorem binary64_exact : binary64.Exact := by
  constructor
  · intro a b hab
    show sizeBytes (Binary64.encode (toNat (binary64.ofInt a) + toNat (binary64.ofInt b))) = _
    rw [toNat_ofInt (by omega), toNat_ofInt (by omega)]
    rfl
  · intro a b hab
    show sizeBytes (Binary64.encode (toNat (binary64.ofInt a) * toNat (binary64.ofInt b))) = _
    have hzero : toNat (binary64.ofInt 0) = 0 := toNat_ofInt (Nat.zero_le _)
    rcases Nat.eq_zero_or_pos a with rfl | ha
    · rw [hzero, Nat.zero_mul, Nat.zero_mul]
      rfl
    · rcases Nat.eq_zero_or_pos b with rfl | hb
      · rw [hzero, Nat.mul_zero, Nat.mul_zero]
        rfl
      · have ha' : a ≤ a * b := Nat.le_mul_of_pos_right a hb
        have hb' : b ≤ a * b := Nat.le_mul_of_pos_left b ha
        rw [toNat_ofInt (ha'.trans hab), toNat_ofInt (hb'.trans hab)]
        rfl

def sampleVars (s : ℕ) : Variables :=
  { n := 1000 + s, x := 2000, inprod := 3000, Inprod := 4000 + 64 * s, alpha := 5000 }

/-- Three processors sum up the first hundred squares. -/
theorem bspinprod_correct_hundred : ∃ steps, ∀ ps c,
    run (fire 3 (next fun _ _ => true)) ps (start (bspinprod binary64 3 sampleVars 100)
      (Superstep.startWorld 3)) = some c →
      ∃ qs c', (ps ++ qs).length = steps ∧ run (fire 3 (next fun _ _ => true)) qs c = some c' ∧
        ∀ s < 3, (c' s).state.stage = .finished ∧
          load (c' s).state.proc.mem (sampleVars s).alpha 8 =
          binary64.ofInt (100 * (100 + 1) * (2 * 100 + 1) / 6) :=
  bspinprod_correct binary64_exact (by decide) (by decide) (by decide)
    (fun s hs => .inl (show 1000 + s + 4 ≤ 2000 by omega)) _ _ _ _ _

end Example

end BspOnMpi.InnerProduct
