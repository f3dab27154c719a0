import Mathlib.Data.List.Basic
import Mathlib.Data.List.Range
import Mathlib.Tactic.Ring

/-! Blocks of memory and their columns. A block is a total map from addresses to cells; `load` and
`store` are the two sides of `memcpy`. A block that is divided in columns of one common width `w`
holds cell `k` of column `c` at address `c * w + k`. Writing all columns from their first cell on
is the only bulk operation: a reallocation and a total exchange are both instances of it. -/

namespace BspOnMpi.Lib

variable {α : Type*}

def load (d : ℕ → α) (a n : ℕ) : List α := (List.range n).map fun i => d (a + i)

def store (d : ℕ → α) (a : ℕ) (xs : List α) : ℕ → α :=
  fun x => if a ≤ x then (xs[x - a]?).getD (d x) else d x

@[simp] theorem load_length (d : ℕ → α) (a n : ℕ) : (load d a n).length = n := by simp [load]

@[simp] theorem load_zero (d : ℕ → α) (a : ℕ) : load d a 0 = [] := rfl

theorem load_getElem? (d : ℕ → α) {a n i : ℕ} (h : i < n) :
    (load d a n)[i]? = some (d (a + i)) := by
  simp [load, List.getElem?_range h]

theorem load_getElem (d : ℕ → α) {a n i : ℕ} (h : i < (load d a n).length) :
    (load d a n)[i] = d (a + i) := by
  simp [load]

theorem load_congr {d e : ℕ → α} {a b n : ℕ} (h : ∀ i < n, d (a + i) = e (b + i)) :
    load d a n = load e b n := by
  apply List.map_congr_left
  intro i hi
  exact h i (List.mem_range.mp hi)

theorem load_eq_iff {d e : ℕ → α} {a b n : ℕ} :
    load d a n = load e b n ↔ ∀ i < n, d (a + i) = e (b + i) := by
  refine ⟨fun h i hi => ?_, load_congr⟩
  have hg := congrArg (fun l => l[i]?) h
  simpa [load_getElem? d hi, load_getElem? e hi] using hg

theorem load_add (d : ℕ → α) (a m n : ℕ) : load d a (m + n) = load d a m ++ load d (a + m) n := by
  simp [load, List.range_add, Nat.add_assoc]

theorem load_succ (d : ℕ → α) (a n : ℕ) : load d a (n + 1) = load d a n ++ [d (a + n)] := by
  simp [load, List.range_succ]

@[simp] theorem store_nil (d : ℕ → α) (a : ℕ) : store d a [] = d := by
  funext x
  simp [store]

theorem store_of_lt (d : ℕ → α) {a x : ℕ} (xs : List α) (h : x < a) : store d a xs x = d x := by
  simp [store, Nat.not_le.mpr h]

theorem store_of_ge (d : ℕ → α) {a x : ℕ} (xs : List α) (h : a + xs.length ≤ x) :
    store d a xs x = d x := by
  have hn : xs[x - a]? = none := List.getElem?_eq_none (by omega)
  simp [store, hn]

theorem store_of_outside (d : ℕ → α) {a x : ℕ} (xs : List α) (h : x < a ∨ a + xs.length ≤ x) :
    store d a xs x = d x :=
  h.elim (store_of_lt d xs) (store_of_ge d xs)

theorem store_add (d : ℕ → α) (a : ℕ) {xs : List α} {i : ℕ} (h : i < xs.length) :
    store d a xs (a + i) = xs[i] := by
  simp [store, List.getElem?_eq_getElem h]

theorem store_of_mem (d : ℕ → α) {a x : ℕ} {xs : List α} (ha : a ≤ x) (h : x - a < xs.length) :
    store d a xs x = xs[x - a] := by
  simp [store, ha, List.getElem?_eq_getElem h]

theorem load_store_same (d : ℕ → α) (a : ℕ) (xs : List α) :
    load (store d a xs) a xs.length = xs := by
  apply List.ext_getElem (by simp)
  intro i hi hx
  rw [load_getElem, store_add d a hx]

theorem load_store_disjoint (d : ℕ → α) {a b n : ℕ} (xs : List α)
    (h : a + n ≤ b ∨ b + xs.length ≤ a) : load (store d b xs) a n = load d a n := by
  apply load_congr
  intro i hi
  exact store_of_outside d xs (by omega)

theorem store_load (d : ℕ → α) (a n : ℕ) : store d a (load d a n) = d := by
  funext x
  by_cases hx : x < a ∨ a + n ≤ x
  · rw [store_of_outside d _ (by rwa [load_length])]
  · rw [store_of_mem d (by omega) (by rw [load_length]; omega), load_getElem]
    congr 1
    omega

theorem load_take {d : ℕ → α} {a n k : ℕ} (h : k ≤ n) : (load d a n).take k = load d a k := by
  obtain ⟨m, rfl⟩ := Nat.exists_eq_add_of_le h
  rw [load_add, List.take_append_of_le_length (by simp), List.take_of_length_le (by simp)]

theorem length_le_of_store_eq [Nontrivial α] {a : ℕ} {xs ys : List α}
    (h : ∀ d : ℕ → α, store d a xs = store d a ys) : ys.length ≤ xs.length := by
  by_contra hlt
  obtain ⟨z, hz⟩ := exists_ne (ys.get ⟨xs.length, by omega⟩)
  have hcell := congrFun (h fun _ => z) (a + xs.length)
  rw [store_of_ge _ _ le_rfl, store_add _ _ (by omega)] at hcell
  exact hz hcell

theorem length_eq_of_store_eq [Nontrivial α] {a : ℕ} {xs ys : List α}
    (h : ∀ d : ℕ → α, store d a xs = store d a ys) : xs.length = ys.length :=
  le_antisymm (length_le_of_store_eq fun d => (h d).symm) (length_le_of_store_eq h)

theorem store_take_iff [Nontrivial α] {a m k : ℕ} {xs : List α} :
    (∀ d : ℕ → α, store d a (xs.take m) = store d a (xs.take k)) ↔
      min m xs.length = min k xs.length := by
  constructor
  · intro h
    have hlen := length_eq_of_store_eq h
    rwa [List.length_take, List.length_take] at hlen
  · intro h d
    rw [List.take_eq_take_iff.mpr h]

theorem store_append (d : ℕ → α) (a : ℕ) (xs ys : List α) :
    store (store d a xs) (a + xs.length) ys = store d a (xs ++ ys) := by
  funext x
  by_cases h1 : x < a
  · rw [store_of_lt _ _ (by omega), store_of_lt _ _ h1, store_of_lt _ _ h1]
  by_cases h2 : x < a + xs.length
  · rw [store_of_lt _ _ h2, store_of_mem _ (by omega) (by omega),
      store_of_mem _ (by omega) (by simp; omega), List.getElem_append_left]
  by_cases h3 : x < a + xs.length + ys.length
  · rw [store_of_mem _ (by omega) (by omega), store_of_mem _ (by omega) (by simp; omega),
      List.getElem_append_right (by omega)]
    congr 1
    omega
  · rw [store_of_ge _ _ (by omega), store_of_ge _ _ (by omega), store_of_ge _ _ (by simp; omega)]

def writeAll (d : ℕ → α) (ws : List (ℕ × List α)) : ℕ → α := ws.foldl (fun d w => store d w.1 w.2) d

@[simp] theorem writeAll_nil (d : ℕ → α) : writeAll d [] = d := rfl

@[simp] theorem writeAll_cons (d : ℕ → α) (w : ℕ × List α) (ws : List (ℕ × List α)) :
    writeAll d (w :: ws) = writeAll (store d w.1 w.2) ws := rfl

theorem writeAll_append (d : ℕ → α) (ws vs : List (ℕ × List α)) :
    writeAll d (ws ++ vs) = writeAll (writeAll d ws) vs :=
  List.foldl_append

theorem writeAll_of_outside (d : ℕ → α) {ws : List (ℕ × List α)} {x : ℕ}
    (h : ∀ w ∈ ws, x < w.1 ∨ w.1 + w.2.length ≤ x) : writeAll d ws x = d x := by
  induction ws generalizing d with
  | nil => rfl
  | cons w ws ih =>
    rw [writeAll_cons, ih _ fun v hv => h v (List.mem_cons_of_mem _ hv)]
    exact store_of_outside d w.2 (h w (List.mem_cons_self ..))

theorem writeAll_of_agree (d : ℕ → α) {f : ℕ → α} {ws : List (ℕ × List α)} {x : ℕ}
    (hagree : ∀ w ∈ ws, w.1 ≤ x → ∀ h : x - w.1 < w.2.length, w.2[x - w.1] = f x)
    (hreach : ∃ w ∈ ws, w.1 ≤ x ∧ x < w.1 + w.2.length) : writeAll d ws x = f x := by
  induction ws generalizing d with
  | nil => simp at hreach
  | cons w ws ih =>
    rw [writeAll_cons]
    by_cases hlater : ∃ v ∈ ws, v.1 ≤ x ∧ x < v.1 + v.2.length
    · exact ih _ (fun v hv => hagree v (List.mem_cons_of_mem _ hv)) hlater
    · rw [writeAll_of_outside]
      · obtain ⟨v, hv, h1, h2⟩ := hreach
        rcases List.mem_cons.mp hv with rfl | hv
        · rw [store_of_mem d h1 (by omega)]
          exact hagree v (List.mem_cons_self ..) h1 (by omega)
        · exact absurd ⟨v, hv, h1, h2⟩ hlater
      · intro v hv
        by_contra hin
        exact hlater ⟨v, hv, by omega, by omega⟩

/-- Column `c` of a block with columns of width `w`, seen from its first cell. -/
def column (d : ℕ → α) (w c : ℕ) : ℕ → α := fun k => d (c * w + k)

theorem column_load (d : ℕ → α) (w c a n : ℕ) :
    load (column d w c) a n = load d (c * w + a) n := by
  apply load_congr
  intro i _
  simp [column, Nat.add_assoc]

theorem column_store_same (d : ℕ → α) (w c a : ℕ) (xs : List α) :
    column (store d (c * w + a) xs) w c = store (column d w c) a xs := by
  funext k
  have hs : c * w + k - (c * w + a) = k - a := by omega
  simp only [column, store, hs, Nat.add_le_add_iff_left]

theorem column_index_ne {w c c' k k' : ℕ} (hc : c ≠ c') (hk : k < w) (hk' : k' < w) :
    c * w + k ≠ c' * w + k' := by
  intro h
  rcases Nat.lt_or_gt_of_ne hc with hlt | hlt
  · have := Nat.mul_le_mul_right w (Nat.succ_le_of_lt hlt)
    rw [Nat.succ_mul] at this
    omega
  · have := Nat.mul_le_mul_right w (Nat.succ_le_of_lt hlt)
    rw [Nat.succ_mul] at this
    omega

theorem column_store_other (d : ℕ → α) {w c e a k : ℕ} (xs : List α) (hc : c ≠ e)
    (ha : a + xs.length ≤ w) (hk : k < w) :
    column (store d (c * w + a) xs) w e k = column d w e k := by
  apply store_of_outside
  by_contra hin
  have hx : c * w + (e * w + k - c * w) = e * w + k := by omega
  exact column_index_ne hc (by omega) hk hx

theorem store_behind {d : ℕ → α} {width proc place c i : ℕ} {xs : List α} (used : ℕ → ℕ)
    (hplace : used proc ≤ place) (hend : place + xs.length ≤ width) (hused : used c ≤ width)
    (hi : i < used c) : store d (proc * width + place) xs (c * width + i) = d (c * width + i) := by
  by_cases he : c = proc
  · rw [he] at hi ⊢
    exact store_of_lt _ _ (by omega)
  · exact column_store_other d xs (Ne.symm he) hend (by omega)

def writeColumns (w : ℕ) (xs : ℕ → List α) (n : ℕ) (d : ℕ → α) : ℕ → α :=
  (List.range n).foldl (fun d i => store d (i * w) (xs i)) d

theorem writeColumns_succ (w : ℕ) (xs : ℕ → List α) (n : ℕ) (d : ℕ → α) :
    writeColumns w xs (n + 1) d = store (writeColumns w xs n d) (n * w) (xs n) := by
  simp [writeColumns, List.range_succ]

theorem writeColumns_succ_other {w : ℕ} {xs : ℕ → List α} {n c : ℕ} (d : ℕ → α)
    (hw : (xs n).length ≤ w) (hc : n ≠ c) {k : ℕ} (hk : k < w) :
    column (writeColumns w xs (n + 1) d) w c k = column (writeColumns w xs n d) w c k := by
  have hs := column_store_other (writeColumns w xs n d) (c := n) (e := c) (a := 0) (xs n) hc
    (by simpa using hw) hk
  rw [writeColumns_succ]
  rwa [Nat.add_zero] at hs

theorem writeColumns_of_ge {w : ℕ} {xs : ℕ → List α} {n c : ℕ} (d : ℕ → α)
    (hw : ∀ i < n, (xs i).length ≤ w) (hc : n ≤ c) {k : ℕ} (hk : k < w) :
    column (writeColumns w xs n d) w c k = column d w c k := by
  induction n with
  | zero => rfl
  | succ n ih =>
    rw [writeColumns_succ_other d (hw n (by omega)) (by omega) hk]
    exact ih (fun i hi => hw i (by omega)) (by omega)

theorem writeColumns_column {w : ℕ} {xs : ℕ → List α} {n c : ℕ} (d : ℕ → α)
    (hw : ∀ i < n, (xs i).length ≤ w) (hc : c < n) {k : ℕ} (hk : k < w) :
    column (writeColumns w xs n d) w c k = store (column d w c) 0 (xs c) k := by
  induction n with
  | zero => omega
  | succ n ih =>
    by_cases he : c = n
    · subst he
      rw [writeColumns_succ]
      have hs := column_store_same (writeColumns w xs c d) w c 0 (xs c)
      rw [Nat.add_zero] at hs
      rw [hs]
      by_cases hl : k < (xs c).length
      · rw [store_of_mem _ (Nat.zero_le _) (by omega), store_of_mem _ (Nat.zero_le _) (by omega)]
      · rw [store_of_ge _ _ (by omega), store_of_ge _ _ (by omega)]
        exact writeColumns_of_ge d (fun i hi => hw i (by omega)) le_rfl hk
    · rw [writeColumns_succ_other d (hw n (by omega)) (Ne.symm he) hk]
      exact ih (fun i hi => hw i (by omega)) (by omega)

end BspOnMpi.Lib
