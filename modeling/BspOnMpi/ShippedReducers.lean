import BspOnMpi.SharedReduce
import Mathlib.Algebra.BigOperators.Group.List.Basic
import Mathlib.Algebra.Ring.Int.Defs
import Mathlib.Order.Lattice
import Mathlib.Tactic.Ring

/-! The shipped reducers. `reduce_numeric.inl` for `int`. A reducer computes what its name says
when its operator is that of the name and when what `make_neutral` leaves does not change a
result. -/

namespace BspOnMpi.ShippedReducers
open Lib Slots SerializedDataset SharedVariableSet SharedReduce

inductive Reducer
  | sum
  | product
  | min
  | max
  | last

/-- `operator()`, which stores its result on the left. -/
def Reducer.op : Reducer → BitVec 32 → BitVec 32 → BitVec 32
  | sum, l, r => l + r
  | product, l, r => l + r
  | min, l, r => if r.slt l then r else l
  | max, l, r => if l.slt r then r else l
  | last, _, r => r

def Reducer.makeNeutral : Reducer → BitVec 32 → BitVec 32
  | sum, _ => 0
  | product, _ => 1
  | min, _ => BitVec.intMax 32
  | max, _ => BitVec.intMin 32
  | last, v => v

def serialize (v : BitVec 32) : List UInt8 :=
  (List.range 4).map fun i => UInt8.ofNat (v.toNat / 256 ^ i)

def deserialize (bytes : List UInt8) : BitVec 32 :=
  BitVec.ofNat 32 (bytes.foldr (fun b n => b.toNat + 256 * n) 0)

theorem deserialize_serialize (v : BitVec 32) : deserialize (serialize v) = v := by
  have hv := v.isLt
  apply BitVec.eq_of_toNat_eq
  simp [deserialize, serialize, List.range_succ]
  omega

abbrev intVar (r : Reducer) : VarType where
  Value := BitVec 32
  op := r.op
  makeNeutral := r.makeNeutral
  serialize := serialize
  deserialize bytes _ := deserialize bytes
  roundtrip v _ := deserialize_serialize v

def Computes (r : Reducer) (xs : List (BitVec 32)) (v : BitVec 32) : Prop :=
  match r with
  | .sum => v = BitVec.ofInt 32 (xs.map BitVec.toInt).sum
  | .product => v = BitVec.ofInt 32 (xs.map BitVec.toInt).prod
  | .min => v ∈ xs ∧ ∀ x ∈ xs, v.toInt ≤ x.toInt
  | .max => v ∈ xs ∧ ∀ x ∈ xs, x.toInt ≤ v.toInt
  | .last => xs.getLast? = some v

theorem sum_monoidal : Monoidal (Reducer.op .sum) (Reducer.makeNeutral .sum) where
  assoc := BitVec.add_assoc
  neutral_left _ := BitVec.zero_add
  neutral_right _ := BitVec.add_zero

theorem toInt_min (l r : BitVec 32) : (Reducer.op .min l r).toInt = min l.toInt r.toInt := by
  simp only [Reducer.op, BitVec.slt_iff_toInt_lt]
  split <;> omega

theorem toInt_max (l r : BitVec 32) : (Reducer.op .max l r).toInt = max l.toInt r.toInt := by
  simp only [Reducer.op, BitVec.slt_iff_toInt_lt]
  split <;> omega

theorem min_monoidal : Monoidal (Reducer.op .min) (Reducer.makeNeutral .min) where
  assoc x y z := by
    apply BitVec.toInt_inj.mp
    simp only [toInt_min, min_assoc]
  neutral_left _ x := by
    have hx : x.toInt ≤ 2 ^ 31 - 1 := BitVec.toInt_le
    apply BitVec.toInt_inj.mp
    rw [toInt_min]
    exact min_eq_right hx
  neutral_right _ x := by
    have hx : x.toInt ≤ 2 ^ 31 - 1 := BitVec.toInt_le
    apply BitVec.toInt_inj.mp
    rw [toInt_min]
    exact min_eq_left hx

theorem max_monoidal : Monoidal (Reducer.op .max) (Reducer.makeNeutral .max) where
  assoc x y z := by
    apply BitVec.toInt_inj.mp
    simp only [toInt_max, max_assoc]
  neutral_left _ x := by
    have hx : -2 ^ 31 ≤ x.toInt := BitVec.le_toInt x
    apply BitVec.toInt_inj.mp
    rw [toInt_max]
    exact max_eq_right hx
  neutral_right _ x := by
    have hx : -2 ^ 31 ≤ x.toInt := BitVec.le_toInt x
    apply BitVec.toInt_inj.mp
    rw [toInt_max]
    exact max_eq_left hx

theorem min_selecting : Selecting (Reducer.op .min) fun x y => x.toInt ≤ y.toInt where
  trans _ _ _ := le_trans
  selects l r := by
    simp only [Reducer.op]
    split
    · exact .inr rfl
    · exact .inl rfl
  left l r := by
    rw [toInt_min]
    exact min_le_left _ _
  right l r := by
    rw [toInt_min]
    exact min_le_right _ _

theorem max_selecting : Selecting (Reducer.op .max) fun x y => y.toInt ≤ x.toInt where
  trans _ _ _ hxy hyz := le_trans hyz hxy
  selects l r := by
    simp only [Reducer.op]
    split
    · exact .inr rfl
    · exact .inl rfl
  left l r := by
    rw [toInt_max]
    exact le_max_left _ _
  right l r := by
    rw [toInt_max]
    exact le_max_right _ _

theorem foldl_add (a : ℤ) (zs : List ℤ) :
    (zs.map (BitVec.ofInt 32)).foldl (· + ·) (BitVec.ofInt 32 a) = BitVec.ofInt 32
    (a + zs.sum) := by
  induction zs generalizing a with
  | nil => simp
  | cons z zs ih =>
    rw [List.map_cons, List.foldl_cons, ← BitVec.ofInt_add, ih, List.sum_cons, add_assoc]

theorem map_ofInt_toInt (xs : List (BitVec 32)) :
    (xs.map BitVec.toInt).map (BitVec.ofInt 32) = xs := by
  rw [List.map_map]
  exact (List.map_congr_left fun x _ => BitVec.ofInt_toInt).trans (List.map_id xs)

theorem foldl_sum (xs : List (BitVec 32)) (v : BitVec 32) :
    Computes .sum xs (xs.foldl (Reducer.op .sum) (Reducer.makeNeutral .sum v)) := by
  have hadd := foldl_add 0 (xs.map BitVec.toInt)
  rw [map_ofInt_toInt, zero_add] at hadd
  exact hadd

theorem foldl_min {xs : List (BitVec 32)} (hxs : xs ≠ []) (v : BitVec 32) :
    Computes .min xs (xs.foldl (Reducer.op .min) (Reducer.makeNeutral .min v)) := by
  obtain ⟨x, xs, rfl⟩ := List.exists_cons_of_ne_nil hxs
  rw [List.foldl_cons, min_monoidal.neutral_left]
  exact min_selecting.foldl x xs

theorem foldl_max {xs : List (BitVec 32)} (hxs : xs ≠ []) (v : BitVec 32) :
    Computes .max xs (xs.foldl (Reducer.op .max) (Reducer.makeNeutral .max v)) := by
  obtain ⟨x, xs, rfl⟩ := List.exists_cons_of_ne_nil hxs
  rw [List.foldl_cons, max_monoidal.neutral_left]
  exact max_selecting.foldl x xs

def neutrals {α : Type} (len : ℕ) (s : Schedule α) : ℕ :=
  if h : 0 < len then (s.split len h).forks + 2 else 1

theorem run_product (g : ℕ → ℤ) {b e : ℕ} (t : Split (BitVec 32) b e) (a : ℤ) :
    t.run (Reducer.op .product) (Reducer.makeNeutral .product) (fun i => BitVec.ofInt 32 (g i))
      (BitVec.ofInt 32 a) = BitVec.ofInt 32 (a + (between g b e).sum + t.forks) := by
  induction t generalizing a with
  | @chunk b e h =>
    have hmap : between (fun i => BitVec.ofInt 32 (g i)) b e =
        (between g b e).map (BitVec.ofInt 32) := by
      rw [between, between, List.map_map]
      rfl
    rw [Split.run, hmap, Split.forks, Nat.cast_zero, add_zero]
    exact foldl_add a (between g b e)
  | sequence l r hl hr =>
    rw [Split.run, hl, hr, ← between_append g l.lt.le r.lt.le, List.sum_append, Split.forks]
    congr 1
    push_cast
    ring
  | fork junk l r hl hr =>
    have hr' := hr 1
    rw [Split.run, hl, ← between_append g l.lt.le r.lt.le, List.sum_append, Split.forks]
    calc Reducer.op .product _ _
        = BitVec.ofInt 32 _ + BitVec.ofInt 32 _ := congrArg _ hr'
      _ = _ := by
        rw [← BitVec.ofInt_add]
        congr 1
        push_cast
        ring

theorem reduce_intVar (r : Reducer) {xs : List (BitVec 32)} (hxs : 0 < xs.length)
    (s : Schedule (BitVec 32)) (v : BitVec 32) : (reduce (intVar r) xs s v : BitVec 32) =
      r.op (r.makeNeutral v) ((s.split xs.length hxs).run r.op r.makeNeutral
        (fun i => xs.getD i s.junk) (r.makeNeutral s.junk)) :=
  dif_pos hxs

theorem reduce_product {zs : List ℤ} (hzs : zs ≠ []) (s : Schedule (BitVec 32)) (v : BitVec 32) :
    (reduce (intVar .product) (zs.map (BitVec.ofInt 32)) s v : BitVec 32) =
      BitVec.ofInt 32 (zs.sum + neutrals zs.length s) := by
  have hpos : 0 < zs.length := List.length_pos_of_ne_nil hzs
  have hlen : (zs.map (BitVec.ofInt 32)).length = zs.length := List.length_map _
  have hpos' : 0 < (zs.map (BitVec.ofInt 32)).length := hlen ▸ hpos
  have hvalues : (fun i => (zs.map (BitVec.ofInt 32)).getD i s.junk) =
      fun i => BitVec.ofInt 32 (zs.getD i s.junk.toInt) := by
    funext i
    by_cases hi : i < zs.length
    · simp [List.getD_eq_getElem?_getD, hi]
    · simp [List.getD_eq_getElem?_getD, hi]
  have hforks : ∀ len (h : 0 < len), len = zs.length →
      (s.split len h).forks = (s.split zs.length hpos).forks := by
    rintro len h rfl
    rfl
  have hall : between (fun i => zs.getD i s.junk.toInt) 0 (zs.map (BitVec.ofInt 32)).length =
      zs := by
    rw [hlen]
    exact between_getD zs _
  have hrun := run_product (fun i => zs.getD i s.junk.toInt)
    (s.split (zs.map (BitVec.ofInt 32)).length hpos') 1
  rw [← hvalues, hall, hforks _ hpos' hlen] at hrun
  rw [reduce_intVar .product hpos', neutrals, dif_pos hpos]
  apply (congrArg (Reducer.op .product (Reducer.makeNeutral .product v)) hrun).trans
  change BitVec.ofInt 32 1 + BitVec.ofInt 32 _ = _
  rw [← BitVec.ofInt_add]
  congr 1
  push_cast
  ring

theorem foldl_last (xs : List (BitVec 32)) (v : BitVec 32) :
    xs.foldl (Reducer.op .last) v = xs.getLast?.getD v := by
  induction xs using List.reverseRecOn with
  | nil => rfl
  | append_singleton xs x ih =>
    rw [List.foldl_append, List.getLast?_append]
    rfl

theorem run_last (f : ℕ → BitVec 32) {b e : ℕ} (t : Split (BitVec 32) b e) (result : BitVec 32) :
    t.run (Reducer.op .last) (Reducer.makeNeutral .last) f result = f (e - 1) := by
  induction t generalizing result with
  | @chunk b e h =>
    have hlast : e - b = e - 1 - b + 1 := by omega
    have hend : b + (e - 1 - b) = e - 1 := by omega
    rw [Split.run, foldl_last, between, hlast, List.range'_concat, List.map_append,
      List.getLast?_append, Nat.one_mul, hend]
    rfl
  | sequence l r hl hr => rw [Split.run, hr]
  | fork junk l r hl hr => exact hr _

theorem reduce_last {xs : List (BitVec 32)} {x : BitVec 32} (hx : xs.getLast? = some x)
    (s : Schedule (BitVec 32)) (v : BitVec 32) :
    (reduce (intVar .last) xs s v : BitVec 32) = x := by
  have hne : xs ≠ [] := by
    rintro rfl
    cases hx
  have hpos : 0 < xs.length := List.length_pos_of_ne_nil hne
  rw [reduce_intVar .last hpos, run_last]
  rw [List.getLast?_eq_getElem?] at hx
  change xs.getD (xs.length - 1) s.junk = x
  rw [List.getD_eq_getElem?_getD, hx]
  rfl

section Nodes

variable {R : Name → Reducer} {n q : ℕ} {mapper : Option (ℕ → ℕ)}
  (env : Environment fun id => intVar (R id)) {w : ℕ → VariableSet fun id => intVar (R id)}
    {id : Name}

def values (n : ℕ) (w : ℕ → VariableSet fun id => intVar (R id)) (id : Name) : List (BitVec 32) :=
  allValues n w id

def allNeutrals (n : ℕ) (env : Environment fun id => intVar (R id))
    (w : ℕ → VariableSet fun id => intVar (R id)) (id : Name) (q : ℕ) : ℕ :=
  ((List.range n).map fun p => neutrals ((w p).vars id).length (env.here p id)).sum +
    if 1 < n then neutrals n (env.everywhere q id) else 0

theorem values_succ (n : ℕ) (w : ℕ → VariableSet fun id => intVar (R id)) (id : Name) :
    values (n + 1) w id = values n w id ++ (w n).vars id := by
  simp [values, allValues, List.range_succ]

theorem sum_values (k : ℕ → ℕ) (n : ℕ) :
    ((List.range n).map fun p => (((w p).vars id).map BitVec.toInt).sum + (k p : ℤ)).sum =
      ((values n w id).map BitVec.toInt).sum + ((List.range n).map k).sum := by
  induction n with
  | zero => rfl
  | succ n ih =>
    rw [List.range_succ, List.map_append, List.sum_append, ih, values_succ, List.map_append,
      List.sum_append, List.map_append, List.sum_append]
    simp only [List.map_cons, List.map_nil, List.sum_cons, List.sum_nil]
    push_cast
    ring

theorem placed_idle {p : ℕ} (hplaced : Placed mapper w id p) (hbusy : ¬ busyAt mapper p = true) :
    (w p).vars id = [] := by
  by_contra hne
  exact hbusy (hplaced.mpr hne)

theorem contribution_product {p : ℕ} (hR : R id = .product) (hplaced : Placed mapper w id p) :
    (contribution mapper env w id p : BitVec 32) = BitVec.ofInt 32
      ((((w p).vars id).map BitVec.toInt).sum + neutrals ((w p).vars id).length
        (env.here p id)) := by
  rw [contribution, localValue]
  by_cases hbusy : busyAt mapper p = true
  · have hne : List.map BitVec.toInt ((w p).vars id) ≠ [] := by simpa using hplaced.mp hbusy
    have hreduce := reduce_product hne (env.here p id) ((w p).value id)
    rw [map_ofInt_toInt, List.length_map] at hreduce
    rw [if_pos hbusy, hR]
    exact hreduce
  · rw [if_neg hbusy, placed_idle hplaced hbusy, hR]
    rfl

theorem outcome_product (hR : R id = .product) (hplaced : ∀ p < n, Placed mapper w id p)
    (hq : q < n) :
    (outcome n mapper env w q id : BitVec 32) = BitVec.ofInt 32
      (((values n w id).map BitVec.toInt).sum + allNeutrals n env w id q) := by
  let k : ℕ → ℕ := fun p => neutrals ((w p).vars id).length (env.here p id)
  let z : ℕ → ℤ := fun p => (((w p).vars id).map BitVec.toInt).sum + k p
  have hcontribution : (List.range n).map (contribution mapper env w id) =
      ((List.range n).map z).map (BitVec.ofInt 32) := by
    rw [List.map_map]
    exact List.map_congr_left fun p hp =>
      contribution_product env hR (hplaced p (List.mem_range.mp hp))
  have hsum : ((List.range n).map z).sum =
      ((values n w id).map BitVec.toInt).sum + ((List.range n).map k).sum := sum_values k n
  rw [outcome]
  by_cases hn : 1 < n
  · rw [if_pos hn, hcontribution, hR, reduce_product (by simp; omega), allNeutrals, if_pos hn, hsum]
    push_cast
    rw [List.length_map, List.length_range, add_assoc]
  · obtain ⟨rfl, rfl⟩ : n = 1 ∧ q = 0 := by omega
    rw [if_neg hn, contribution_product env hR (hplaced 0 hq), allNeutrals, if_neg hn, add_zero,
      ← hsum]
    simp [z, k]

def lastValue (s : VariableSet fun id => intVar (R id)) (id : Name) : BitVec 32 :=
  (s.vars id).getLast?.getD (s.value id)

theorem contribution_last {p : ℕ} (hR : R id = .last) (hplaced : Placed mapper w id p) :
    (contribution mapper env w id p : BitVec 32) = lastValue (w p) id := by
  rw [contribution, localValue, lastValue]
  by_cases hbusy : busyAt mapper p = true
  · have hlast := List.getLast?_eq_some_getLast (hplaced.mp hbusy)
    rw [if_pos hbusy, hR, reduce_last hlast, hlast]
    rfl
  · rw [if_neg hbusy, placed_idle hplaced hbusy, hR]
    rfl

theorem outcome_last (hR : R id = .last) (hplaced : ∀ p < n, Placed mapper w id p) (hq : q < n) :
    (outcome n mapper env w q id : BitVec 32) = lastValue (w (n - 1)) id := by
  have hlast := contribution_last env hR (hplaced (n - 1) (by omega))
  rw [outcome]
  by_cases hn : 1 < n
  · have hrange : ((List.range n).map (contribution mapper env w id)).getLast? =
        some (contribution mapper env w id (n - 1)) := by
      rw [List.getLast?_map, List.getLast?_range, if_neg (by omega)]
      rfl
    rw [if_pos hn, hR, reduce_last hrange]
    exact hlast
  · obtain ⟨rfl, rfl⟩ : n = 1 ∧ q = 0 := by omega
    rw [if_neg hn]
    exact hlast

theorem values_getLast (hn : 0 < n) (hne : (w (n - 1)).vars id ≠ []) :
    (values n w id).getLast? = some (lastValue (w (n - 1)) id) := by
  obtain ⟨m, rfl⟩ := Nat.exists_eq_succ_of_ne_zero hn.ne'
  rw [Nat.succ_sub_one] at hne ⊢
  have hlast := List.getLast?_eq_some_getLast hne
  rw [values_succ, List.getLast?_append, lastValue, hlast]
  rfl

/-- When `reduce_all` computes what the name says. A product is a sum that includes the
neutral values, and the last node contributes its old value if it has no contexts. -/
def Meets (n : ℕ) (env : Environment fun id => intVar (R id))
    (w : ℕ → VariableSet fun id => intVar (R id)) (id : Name) : Prop :=
  match R id with
  | .sum => True
  | .min => True
  | .max => True
  | .product => ∀ q < n, BitVec.ofInt 32 ((values n w id).map BitVec.toInt).prod =
      BitVec.ofInt 32 (((values n w id).map BitVec.toInt).sum + allNeutrals n env w id q)
  | .last => (w (n - 1)).vars id ≠ [] ∨ (values n w id).getLast? = some ((w (n - 1)).value id)

theorem reducers_compute_iff (hw : Consistent n w) (hn : 0 < n) (hid : id ∈ (w 0).reduceList)
    (hplaced : ∀ p < n, Placed mapper w id p) (hsome : values n w id ≠ []) :
    (∀ q < n, Computes (R id) (values n w id) ((reduceAll n mapper env w q).value id)) ↔
      Meets n env w id := by
  have hvalue : ∀ q < n, (reduceAll n mapper env w q).value id = outcome n mapper env w q id := by
    intro q hq
    rw [hw.lists 0 hn q hq] at hid
    exact reduceAll_value mapper env hw hq hid
  have hfold : Monoidal (R id).op (R id).makeNeutral → ∀ q < n,
      (reduceAll n mapper env w q).value id =
        (values n w id).foldl (R id).op ((R id).makeNeutral 0) := by
    intro h q hq
    rw [hvalue q hq]
    exact outcome_eq env h hplaced hq 0
  rw [Meets]
  cases hR : R id with
  | sum =>
    refine iff_of_true (fun q hq => ?_) trivial
    rw [hR] at hfold
    rw [hfold sum_monoidal q hq]
    exact foldl_sum _ _
  | min =>
    refine iff_of_true (fun q hq => ?_) trivial
    rw [hR] at hfold
    rw [hfold min_monoidal q hq]
    exact foldl_min hsome _
  | max =>
    refine iff_of_true (fun q hq => ?_) trivial
    rw [hR] at hfold
    rw [hfold max_monoidal q hq]
    exact foldl_max hsome _
  | product =>
    apply forall₂_congr
    intro q hq
    rw [hvalue q hq, outcome_product env hR hplaced hq, Computes]
    exact eq_comm
  | last =>
    have hlast : ∀ q < n, (reduceAll n mapper env w q).value id = lastValue (w (n - 1)) id := by
      intro q hq
      rw [hvalue q hq]
      exact outcome_last env hR hplaced hq
    constructor
    · intro h
      by_cases hne : (w (n - 1)).vars id = []
      · have hq := h 0 hn
        rw [hlast 0 hn, lastValue, hne] at hq
        exact .inr hq
      · exact .inl hne
    · intro h q hq
      rw [hlast q hq]
      by_cases hne : (w (n - 1)).vars id = []
      · have hold := h.resolve_left fun h => h hne
        rw [lastValue, hne]
        exact hold
      · exact values_getLast hn hne

end Nodes

def intChildren : ℕ → List (BitVec 32)
  | 0 => [3, -4]
  | 2 => [5]
  | _ => []

theorem reducers_compute_min :
    let mapper := some fun p => (intChildren p).length
    let w := single (intVar .min) [105] 0 intChildren
    ∀ q < 3, Computes .min [3, -4, 5]
      ((reduceAll 3 mapper (unsplit (intVar .min) 0) w q).value [105]) := by
  intro mapper w
  have hiff := reducers_compute_iff (R := fun _ => .min)
    (unsplit (intVar .min) 0) (w := w) (single_consistent _ _ _ _ 3) (by decide)
    (single_mem (intVar .min) [105] 0 intChildren 0)
    (fun p _ => single_placed (intVar .min) [105] 0 intChildren _ p) (List.cons_ne_nil _ _)
  exact hiff.mpr trivial

def firstOnly : ℕ → List (BitVec 32)
  | 0 => [3]
  | _ => []

/-- The product of a single 3 is 5. After a last node without contexts, its old value 0
is the last one. -/
theorem reducers_differ :
    ¬ Computes .product [3] ((reduceAll 1 none (unsplit (intVar .product) 0)
      (single (intVar .product) [105] 0 firstOnly) 0).value [105]) ∧
    ¬ Computes .last [3] ((reduceAll 2 (some fun p => (firstOnly p).length)
      (unsplit (intVar .last) 0) (single (intVar .last) [105] 0 firstOnly) 0).value [105]) := by
  constructor
  · have hfive : (reduceAll 1 none (unsplit (intVar .product) 0)
        (single (intVar .product) [105] 0 firstOnly) 0).value [105] = 5 := rfl
    rw [hfive]
    exact (by decide : (5 : BitVec 32) ≠ 3)
  · have hw := single_consistent (intVar .last) [105] 0 firstOnly 2
    have hzero := reduceAll_value (some fun p => (firstOnly p).length) (unsplit (intVar .last) 0) hw
      (by decide : 0 < 2) (single_mem (intVar .last) [105] 0 firstOnly 0)
    rw [hzero]
    exact (by decide : some (3 : BitVec 32) ≠ some 0)

end BspOnMpi.ShippedReducers
