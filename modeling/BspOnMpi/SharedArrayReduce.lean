import BspOnMpi.SharedArray
import BspOnMpi.SharedReduce

/-! Reduction of shared arrays. `SharedVariable::reduce` with the operator `Reduce` on
`SharedArray`. Accumulators are default-constructed, so that they start without elements, and are
resized when a longer array is reduced into them. As in the source's `int` loops, arrays have
fewer than 2^31 elements. -/

namespace BspOnMpi.SharedArrayReduce
open Lib SharedVariableSet SharedArray

variable {α : Type}

structure ElementReducer (α : Type) where
  op : α → α → α
  makeNeutral : α → α
  fresh : ℕ → ℕ → α

section Operations

variable (red : ElementReducer α)

def makeNeutral (a : List α) : List α := a.map red.makeNeutral

def reduceWith (a rhs : List α) : List α :=
  let a := if a.length < rhs.length then resize red.makeNeutral red.fresh rhs.length a else a
  a.mapIdx fun i x => (rhs[i]?).elim x (red.op x)

/-- `tbb::parallel_reduce` with default-constructed accumulators. -/
def arraySchedule (split : ∀ n, 0 < n → Split Unit 0 n) : Schedule (List α) where
  junk := []
  split n h := (split n h).map fun _ => []

def reduceArrays (vars : List (List α)) (split : ∀ n, 0 < n → Split Unit 0 n) (value : List α) :
    List α :=
  if h : 0 < vars.length then
    reduceWith red (makeNeutral red value)
      (((arraySchedule split).split vars.length h).run (reduceWith red) (makeNeutral red)
        (fun i => vars.getD i []) (makeNeutral red []))
  else value

end Operations

theorem reduce_arrays (red : ElementReducer α) (serialize : List α → List UInt8)
    (deserialize : List UInt8 → List α → List α)
    (roundtrip : ∀ v old, deserialize (serialize v) old = v) (vars : List (List α))
    (split : ∀ n, 0 < n → Split Unit 0 n) (value : List α) :
    reduce ⟨List α, reduceWith red, makeNeutral red, serialize, deserialize, roundtrip⟩ vars
      (arraySchedule split) value = reduceArrays red vars split value := rfl

section Monoid

variable {red : ElementReducer α} (h : Monoidal red.op red.makeNeutral)

include h

theorem resize_getD (v : α) {newSize : ℕ} {a : List α} (hle : a.length ≤ newSize) (i : ℕ) :
    (resize red.makeNeutral red.fresh newSize a).getD i (red.makeNeutral v) =
      a.getD i (red.makeNeutral v) := by
  unfold resize
  split
  · rfl
  · rw [List.take_of_length_le hle, List.getD_eq_getElem?_getD, List.getD_eq_getElem?_getD]
    rcases Nat.lt_or_ge i a.length with hi | hi
    · rw [List.getElem?_append_left hi]
    · rw [List.getElem?_append_right hi, List.getElem?_eq_none hi, Option.getD_none,
        List.getElem?_map]
      cases (List.range (newSize - a.length))[i - a.length]? with
      | none => rfl
      | some j => exact h.neutral_eq _ _

omit h in
theorem reduceWith_length (a rhs : List α) :
    (reduceWith red a rhs).length = max a.length rhs.length := by
  simp only [reduceWith, List.length_mapIdx]
  split
  · rw [resize_length]
    omega
  · omega

theorem reduceWith_getD (v : α) (a rhs : List α) (i : ℕ) :
    (reduceWith red a rhs).getD i (red.makeNeutral v) =
      red.op (a.getD i (red.makeNeutral v)) (rhs.getD i (red.makeNeutral v)) := by
  -- the loop over `rhs` reaches all of its indices, since `a` has been made long enough
  have hloop : ∀ b : List α, rhs.length ≤ b.length →
      (b.mapIdx fun i x => (rhs[i]?).elim x (red.op x)).getD i (red.makeNeutral v) =
        red.op (b.getD i (red.makeNeutral v)) (rhs.getD i (red.makeNeutral v)) := by
    intro b hb
    simp only [List.getD_eq_getElem?_getD, List.getElem?_mapIdx]
    rcases Nat.lt_or_ge i b.length with hi | hi
    · rw [List.getElem?_eq_getElem hi, Option.map_some, Option.getD_some, Option.getD_some]
      cases rhs[i]? with
      | none => exact (h.neutral_right v b[i]).symm
      | some y => rfl
    · rw [List.getElem?_eq_none hi, List.getElem?_eq_none (hb.trans hi), Option.map_none]
      exact (h.neutral_right v _).symm
  rw [reduceWith]
  split
  · rename_i hlt
    rw [hloop _ (by rw [resize_length]), resize_getD h v hlt.le]
  · rename_i hge
    exact hloop a (by omega)

omit h in
theorem ext_getD (red : ElementReducer α) {a b : List α} (hlen : a.length = b.length)
    (hget : ∀ v i, a.getD i (red.makeNeutral v) = b.getD i (red.makeNeutral v)) : a = b := by
  apply List.ext_getElem hlen
  intro i ha hb
  have hi := hget a[i] i
  simpa [ha, hb] using hi

theorem reduceWith_monoidal : Monoidal (reduceWith red) fun _ => [] where
  assoc a b c := by
    apply ext_getD red
    · simp only [reduceWith_length, Nat.max_assoc]
    · intro v i
      simp only [reduceWith_getD h, h.assoc]
  neutral_left _ a := by
    apply ext_getD red
    · rw [reduceWith_length]
      exact Nat.zero_max _
    · intro v i
      rw [reduceWith_getD h]
      exact h.neutral_left v _
  neutral_right _ a := by
    apply ext_getD red
    · rw [reduceWith_length]
      exact Nat.max_zero _
    · intro v i
      rw [reduceWith_getD h]
      exact h.neutral_right v _

omit h in
theorem foldl_length (vars : List (List α)) (a : List α) :
    (vars.foldl (reduceWith red) a).length =
      max a.length ((vars.map List.length).foldr max 0) := by
  induction vars generalizing a with
  | nil => exact (Nat.max_zero _).symm
  | cons b vars ih =>
    rw [List.foldl_cons, ih, reduceWith_length, List.map_cons, List.foldr_cons, Nat.max_assoc]

theorem foldl_getD (v : α) (vars : List (List α)) (a : List α) (i : ℕ) :
    (vars.foldl (reduceWith red) a).getD i (red.makeNeutral v) =
      (vars.filterMap fun b => b[i]?).foldl red.op (a.getD i (red.makeNeutral v)) := by
  induction vars generalizing a with
  | nil => rfl
  | cons b vars ih =>
    rw [List.foldl_cons, ih, reduceWith_getD h, List.filterMap_cons,
      List.getD_eq_getElem?_getD (l := b)]
    cases b[i]? with
    | none => rw [Option.getD_none, h.neutral_right]
    | some y => rfl

/-- However the children are split, they are reduced from left to right into the array. -/
theorem reduceArrays_eq {vars : List (List α)} (hvars : vars ≠ [])
    (split : ∀ n, 0 < n → Split Unit 0 n) (value : List α) :
    reduceArrays red vars split value = vars.foldl (reduceWith red) (makeNeutral red value) := by
  have hm := reduceWith_monoidal h
  have hpos := List.length_pos_of_ne_nil hvars
  have hrun := Split.run_neutral_congr (reduceWith red) (makeNeutral red) (fun _ => [])
    (fun i => vars.getD i []) (fun _ => []) (fun _ => rfl) (split vars.length hpos)
  rw [reduceArrays, dif_pos hpos, arraySchedule, hrun, hm.run_eq, between_getD]
  exact hm.op_foldl _ [] vars

end Monoid

/-- The reduced array is as long as the longest one and the array before, and every element is
the fold of the children's elements with this index. -/
theorem reduceArrays_elementwise {red : ElementReducer α} (h : Monoidal red.op red.makeNeutral)
    {vars : List (List α)} (hvars : vars ≠ []) (split : ∀ n, 0 < n → Split Unit 0 n)
    (value : List α) :
    (reduceArrays red vars split value).length =
      max value.length ((vars.map List.length).foldr max 0) ∧
    ∀ i < (reduceArrays red vars split value).length, ∀ v,
      (reduceArrays red vars split value)[i]? =
        some ((vars.filterMap fun b => b[i]?).foldl red.op (red.makeNeutral v)) := by
  have hlen : (makeNeutral red value).length = value.length := List.length_map _
  rw [reduceArrays_eq h hvars]
  constructor
  · rw [foldl_length, hlen]
  · intro i hi v
    have hget := foldl_getD h v vars (makeNeutral red value) i
    have hneutral : (makeNeutral red value).getD i (red.makeNeutral v) = red.makeNeutral v := by
      rw [makeNeutral, List.getD_eq_getElem?_getD, List.getElem?_map]
      cases value[i]? with
      | none => rfl
      | some x => exact h.neutral_eq x v
    rw [hneutral, List.getD_eq_getElem?_getD, List.getElem?_eq_getElem hi, Option.getD_some] at hget
    rw [List.getElem?_eq_getElem hi, hget]

def byteReducer : ElementReducer UInt8 := ⟨(· + ·), fun _ => 0, fun _ _ => 9⟩

def splitLast : ∀ n, 0 < n → Split Unit 0 n
  | 1, _ => .chunk Nat.one_pos
  | n + 2, _ => .fork () (.chunk (Nat.succ_pos n)) (.chunk (Nat.lt_succ_self (n + 1)))

theorem reduceArrays_elementwise_bytes :
    (reduceArrays byteReducer [[1, 2], [3], [4, 5, 6]] splitLast [7, 7]).length = 3 ∧
      ∀ i < 3, ∀ v,
        (reduceArrays byteReducer [[1, 2], [3], [4, 5, 6]] splitLast [7, 7])[i]? =
          some (([[1, 2], [3], [4, 5, 6]].filterMap fun b => b[i]?).foldl byteReducer.op
            (byteReducer.makeNeutral v)) := by
  have hbytes : Monoidal byteReducer.op byteReducer.makeNeutral := SharedReduce.byteSum_monoidal
  have hvars : [[(1 : UInt8), 2], [3], [4, 5, 6]] ≠ [] := by decide
  exact reduceArrays_elementwise hbytes hvars splitLast [7, 7]

end BspOnMpi.SharedArrayReduce
