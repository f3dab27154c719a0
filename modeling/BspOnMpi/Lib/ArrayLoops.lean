import BspOnMpi.Lib.Block

/-! Loops over arrays. The loop that finds the largest element, the one that searches an array
from its end, the one that closes the gaps of removed elements in place, and what these do to the
list of the elements that are not removed. -/

namespace BspOnMpi.Lib

variable {α β : Type*}

def largest (f : ℕ → ℕ) (n : ℕ) : ℕ := (List.range n).foldl (fun m p => max (f p) m) 0

theorem largest_succ (f : ℕ → ℕ) (n : ℕ) : largest f (n + 1) = max (f n) (largest f n) := by
  rw [largest, List.range_succ, List.foldl_append]
  rfl

theorem le_largest (f : ℕ → ℕ) {n p : ℕ} (hp : p < n) : f p ≤ largest f n := by
  induction n with
  | zero => omega
  | succ n ih =>
    rw [largest_succ]
    rcases Nat.lt_or_eq_of_le (Nat.le_of_lt_succ hp) with hlt | rfl
    · exact (ih hlt).trans (le_max_right _ _)
    · exact le_max_left _ _

theorem largest_lt {f : ℕ → ℕ} {n b : ℕ} (hb : 0 < b) (h : ∀ p < n, f p < b) : largest f n < b := by
  induction n with
  | zero => exact hb
  | succ n ih =>
    rw [largest_succ]
    exact max_lt (h n (Nat.lt_succ_self n)) (ih fun p hp => h p (by omega))

theorem largest_attained (f : ℕ → ℕ) {n : ℕ} (hn : 0 < n) : ∃ p < n, largest f n = f p := by
  induction n with
  | zero => exact absurd hn (lt_irrefl 0)
  | succ n ih =>
    rw [largest_succ]
    rcases Nat.le_total (largest f n) (f n) with hle | hle
    · exact ⟨n, Nat.lt_succ_self n, by omega⟩
    · rcases Nat.eq_zero_or_pos n with rfl | hpos
      · exact ⟨0, Nat.one_pos, by simp [largest] at *⟩
      · obtain ⟨p, hp, heq⟩ := ih hpos
        exact ⟨p, by omega, by omega⟩

theorem largest_congr {f g : ℕ → ℕ} {n : ℕ} (h : ∀ p < n, f p = g p) :
    largest f n = largest g n := by
  induction n with
  | zero => rfl
  | succ n ih =>
    rw [largest_succ, largest_succ, h n (Nat.lt_succ_self n), ih fun p hp => h p (by omega)]

/-- The loop `for (k = n - 1; k >= 0; k--) if (p k) return k;`. -/
def scanDown (p : ℕ → Bool) : ℕ → Option ℕ
  | 0 => none
  | k + 1 => if p k then some k else scanDown p k

theorem scanDown_eq_some {p : ℕ → Bool} {n k : ℕ} :
    scanDown p n = some k ↔ k < n ∧ p k = true ∧ ∀ j, k < j → j < n → p j = false := by
  induction n with
  | zero => simp [scanDown]
  | succ n ih =>
    unfold scanDown
    by_cases hn : p n = true
    · rw [if_pos hn]
      constructor
      · rintro ⟨rfl⟩
        exact ⟨Nat.lt_succ_self _, hn, fun j h1 h2 => by omega⟩
      · rintro ⟨hk, -, hall⟩
        rcases Nat.lt_or_eq_of_le (Nat.le_of_lt_succ hk) with hlt | rfl
        · rw [hall n hlt (Nat.lt_succ_self _)] at hn
          exact absurd hn (by simp)
        · rfl
    · rw [if_neg hn, ih]
      have hf : p n = false := by simpa using hn
      constructor
      · rintro ⟨hk, hp, hall⟩
        refine ⟨by omega, hp, fun j h1 h2 => ?_⟩
        rcases Nat.lt_or_eq_of_le (Nat.le_of_lt_succ h2) with hlt | rfl
        · exact hall j h1 hlt
        · exact hf
      · rintro ⟨hk, hp, hall⟩
        have hne : k ≠ n := by rintro rfl; exact hn hp
        exact ⟨by omega, hp, fun j h1 h2 => hall j h1 (by omega)⟩

theorem scanDown_eq_none {p : ℕ → Bool} {n : ℕ} :
    scanDown p n = none ↔ ∀ j < n, p j = false := by
  induction n with
  | zero => simp [scanDown]
  | succ n ih =>
    unfold scanDown
    by_cases hn : p n = true
    · rw [if_pos hn]
      refine ⟨fun h => by simp at h, fun h => ?_⟩
      rw [h n (Nat.lt_succ_self _)] at hn
      exact absurd hn (by simp)
    · have hf : p n = false := by simpa using hn
      rw [if_neg hn, ih]
      refine ⟨fun h j hj => ?_, fun h j hj => h j (by omega)⟩
      rcases Nat.lt_or_eq_of_le (Nat.le_of_lt_succ hj) with hlt | rfl
      · exact h j hlt
      · exact hf

def keepFrom (removed : ℕ → Bool) : ℕ → List α → List α
  | _, [] => []
  | i, a :: l => if removed i then keepFrom removed (i + 1) l else a :: keepFrom removed (i + 1) l

theorem keepFrom_append (removed : ℕ → Bool) (i : ℕ) (l m : List α) :
    keepFrom removed i (l ++ m) = keepFrom removed i l ++ keepFrom removed (i + l.length) m := by
  induction l generalizing i with
  | nil => rfl
  | cons a l ih =>
    have hlen : i + (a :: l).length = i + 1 + l.length := by simp; omega
    simp only [List.cons_append, keepFrom, ih, hlen]
    split <;> rfl

theorem keepFrom_map (removed : ℕ → Bool) (f : α → β) (i : ℕ) (l : List α) :
    keepFrom removed i (l.map f) = (keepFrom removed i l).map f := by
  induction l generalizing i with
  | nil => rfl
  | cons a l ih =>
    simp only [List.map_cons, keepFrom, ih]
    split <;> rfl

theorem keepFrom_congr {r s : ℕ → Bool} {i : ℕ} {l : List α}
    (h : ∀ j, i ≤ j → j < i + l.length → r j = s j) : keepFrom r i l = keepFrom s i l := by
  induction l generalizing i with
  | nil => rfl
  | cons a l ih =>
    have hi := h i le_rfl (by simp)
    have ht : keepFrom r (i + 1) l = keepFrom s (i + 1) l :=
      ih fun j h1 h2 => h j (by omega) (by simp only [List.length_cons]; omega)
    simp only [keepFrom, hi, ht]

theorem keepFrom_none {r : ℕ → Bool} {i : ℕ} {l : List α}
    (h : ∀ j, i ≤ j → j < i + l.length → r j = false) : keepFrom r i l = l := by
  induction l generalizing i with
  | nil => rfl
  | cons a l ih =>
    have hi := h i le_rfl (by simp)
    have ht : keepFrom r (i + 1) l = l :=
      ih fun j h1 h2 => h j (by omega) (by simp only [List.length_cons]; omega)
    simp [keepFrom, hi, ht]

theorem keepFrom_length_le (removed : ℕ → Bool) (i : ℕ) (l : List α) :
    (keepFrom removed i l).length ≤ l.length := by
  induction l generalizing i with
  | nil => exact le_rfl
  | cons a l ih =>
    have := ih (i + 1)
    simp only [keepFrom]
    split
    · simp only [List.length_cons]; omega
    · simp only [List.length_cons]; omega

theorem mem_keepFrom {removed : ℕ → Bool} {i : ℕ} {l : List α} {a : α} :
    a ∈ keepFrom removed i l ↔ ∃ j, removed (i + j) = false ∧ l[j]? = some a := by
  induction l generalizing i with
  | nil => simp [keepFrom]
  | cons b l ih =>
    have hshift : ∀ j, i + 1 + j = i + (j + 1) := fun j => by omega
    simp only [keepFrom]
    constructor
    · intro h
      split at h
      · obtain ⟨j, hj⟩ := ih.mp h
        exact ⟨j + 1, by rw [← hshift]; exact hj.1, by simpa using hj.2⟩
      · rename_i hb
        rcases List.mem_cons.mp h with rfl | h
        · exact ⟨0, by simpa using hb, rfl⟩
        · obtain ⟨j, hj⟩ := ih.mp h
          exact ⟨j + 1, by rw [← hshift]; exact hj.1, by simpa using hj.2⟩
    · rintro ⟨j, hj, hl⟩
      cases j with
      | zero =>
        have hb : b = a := by simpa using hl
        have hr : removed i = false := by simpa using hj
        simp [hr, hb]
      | succ j =>
        have hm := ih.mpr ⟨j, by rw [hshift]; exact hj, by simpa using hl⟩
        split
        · exact hm
        · exact List.mem_cons_of_mem _ hm

def eraseLast (p : α → Bool) (l : List α) : List α := (l.reverse.eraseP p).reverse

theorem eraseLast_split {p : α → Bool} {xs ys : List α} {a : α} (ha : p a = true)
    (hy : ∀ y ∈ ys, p y = false) : eraseLast p (xs ++ a :: ys) = xs ++ ys := by
  have hr : (xs ++ a :: ys).reverse = ys.reverse ++ a :: xs.reverse := by simp
  have hn : ∀ y ∈ ys.reverse, ¬ p y = true := fun y h => by simp [hy y (by simpa using h)]
  rw [eraseLast, hr, List.eraseP_append_right _ hn, List.eraseP_cons_of_pos ha]
  simp

theorem eraseLast_none {p : α → Bool} {l : List α} (h : ∀ y ∈ l, p y = false) :
    eraseLast p l = l := by
  rw [eraseLast, List.eraseP_of_forall_not, List.reverse_reverse]
  intro y hy
  simp [h y (by simpa using hy)]

theorem eraseLast_append_of_mem {p : α → Bool} (xs : List α) {ys : List α}
    (h : ∃ y ∈ ys, p y = true) : eraseLast p (xs ++ ys) = xs ++ eraseLast p ys := by
  obtain ⟨y, hy, hp⟩ := h
  rw [eraseLast, List.reverse_append, List.eraseP_append_left hp _ (List.mem_reverse.mpr hy),
    List.reverse_append, List.reverse_reverse, eraseLast]

theorem eraseLast_append_of_not {p : α → Bool} (xs : List α) {ys : List α}
    (h : ∀ y ∈ ys, p y = false) : eraseLast p (xs ++ ys) = eraseLast p xs ++ ys := by
  have hn : ∀ y ∈ ys.reverse, ¬ p y = true := fun y hy => by simp [h y (by simpa using hy)]
  rw [eraseLast, List.reverse_append, List.eraseP_append_right _ hn, List.reverse_append,
    List.reverse_reverse, eraseLast]

theorem eraseLast_comm {p q : α → Bool} {l : List α} (h : ∀ a ∈ l, ¬ p a = true ∨ ¬ q a = true) :
    eraseLast p (eraseLast q l) = eraseLast q (eraseLast p l) := by
  simp only [eraseLast, List.reverse_reverse]
  rw [List.eraseP_comm]
  intro a ha
  exact (h a (List.mem_reverse.mp ha)).symm

theorem eraseLast_length_le (p : α → Bool) (l : List α) :
    l.length ≤ (eraseLast p l).length + 1 := by
  rw [eraseLast, List.length_reverse, List.length_eraseP, List.length_reverse]
  split <;> omega

theorem eraseLast_eq_of_not_mem {p : α → Bool} {l : List α} (h : ¬ ∃ a ∈ l, p a = true) :
    eraseLast p l = l :=
  eraseLast_none fun y hy => by
    by_contra hp
    exact h ⟨y, hy, by simpa using hp⟩

theorem exists_last {p : α → Bool} {l : List α} (h : ∃ a ∈ l, p a = true) :
    ∃ xs a ys, l = xs ++ a :: ys ∧ p a = true ∧ ∀ y ∈ ys, p y = false := by
  induction l with
  | nil => obtain ⟨a, ha, -⟩ := h; simp at ha
  | cons b l ih =>
    by_cases hl : ∃ a ∈ l, p a = true
    · obtain ⟨xs, a, ys, rfl, ha, hy⟩ := ih hl
      exact ⟨b :: xs, a, ys, rfl, ha, hy⟩
    · have hall : ∀ y ∈ l, p y = false := by
        intro y hy
        by_contra hne
        exact hl ⟨y, hy, by simpa using hne⟩
      obtain ⟨a, ha, hpa⟩ := h
      rcases List.mem_cons.mp ha with rfl | ha
      · exact ⟨[], a, l, rfl, hpa, hall⟩
      · exact absurd ⟨a, ha, hpa⟩ hl

theorem eraseLast_length_of_mem {p : α → Bool} {l : List α} (h : ∃ a ∈ l, p a = true) :
    (eraseLast p l).length + 1 = l.length := by
  obtain ⟨xs, a, ys, rfl, ha, hys⟩ := exists_last h
  rw [eraseLast_split ha hys]
  simp only [List.length_append, List.length_cons]
  omega

theorem keepFrom_mark {r : ℕ → Bool} {p : α → Bool} {l : List α} {k : ℕ} {a : α}
    (hk : l[k]? = some a) (hr : r k = false) (hp : p a = true)
    (hlast : ∀ j b, k < j → l[j]? = some b → r j = false → p b = false) :
    keepFrom (Function.update r k true) 0 l = eraseLast p (keepFrom r 0 l) ∧
      (keepFrom (Function.update r k true) 0 l).length + 1 =
        (keepFrom r 0 l).length := by
  obtain ⟨hlt, hget⟩ := List.getElem?_eq_some_iff.mp hk
  have hsplit : l = l.take k ++ a :: l.drop (k + 1) := by
    rw [← hget, List.getElem_cons_drop, List.take_append_drop]
  have hlen : (l.take k).length = k := by simp; omega
  have hold : keepFrom r 0 l =
      keepFrom r 0 (l.take k) ++ a :: keepFrom r (k + 1) (l.drop (k + 1)) := by
    conv_lhs => rw [hsplit]
    rw [keepFrom_append, hlen]
    simp [keepFrom, hr]
  have hnew : keepFrom (Function.update r k true) 0 l =
      keepFrom r 0 (l.take k) ++ keepFrom r (k + 1) (l.drop (k + 1)) := by
    conv_lhs => rw [hsplit]
    rw [keepFrom_append, hlen]
    simp only [Nat.zero_add, keepFrom, Function.update_self, if_true]
    congr 1
    · exact keepFrom_congr fun j _ hj => Function.update_of_ne (by omega) _ _
    · exact keepFrom_congr fun j hj _ => Function.update_of_ne (by omega) _ _
  refine ⟨?_, by rw [hold, hnew]; simp; omega⟩
  rw [hold, hnew, eraseLast_split hp]
  intro y hy
  obtain ⟨j, hj, hl⟩ := mem_keepFrom.mp hy
  rw [List.getElem?_drop] at hl
  exact hlast _ y (by omega) hl hj

/-- The body of `if (removed[j]) displ++; else array[j - displ] = array[j];`. -/
def compactStep (removed : ℕ → Bool) (base : ℕ) (s : ℕ × (ℕ → α)) (j : ℕ) : ℕ × (ℕ → α) :=
  if removed j then (s.1 + 1, s.2) else (s.1, store s.2 (base + (j - s.1)) [s.2 (base + j)])

def compact (removed : ℕ → Bool) (base used : ℕ) (d : ℕ → α) : ℕ → α :=
  ((List.range used).foldl (compactStep removed base) (0, d)).2

theorem compact_invariant (removed : ℕ → Bool) (base n : ℕ) (d : ℕ → α) :
    let s := (List.range n).foldl (compactStep removed base) (0, d)
    let kept := keepFrom removed 0 (load d base n)
    s.1 + kept.length = n ∧ load s.2 base kept.length = kept ∧
      ∀ x, x < base ∨ base + kept.length ≤ x → s.2 x = d x := by
  induction n with
  | zero => simp [keepFrom]
  | succ n ih =>
    simp only [List.range_succ, List.foldl_append, List.foldl_cons, List.foldl_nil]
    rw [load_succ, keepFrom_append, load_length]
    generalize (List.range n).foldl (compactStep removed base) (0, d) = s at ih ⊢
    generalize keepFrom removed 0 (load d base n) = kept at ih ⊢
    obtain ⟨hlen, hload, hout⟩ := ih
    simp only [compactStep, keepFrom, Nat.zero_add]
    by_cases hr : removed n = true
    · simp only [if_pos hr, List.append_nil]
      exact ⟨by omega, hload, hout⟩
    · have hpos : base + (n - s.1) = base + kept.length := by omega
      have hval : s.2 (base + n) = d (base + n) := hout _ (by omega)
      simp only [if_neg hr, List.length_append, List.length_singleton, hpos, hval]
      refine ⟨by omega, ?_, fun x hx => ?_⟩
      · have hnew := load_store_same s.2 (base + kept.length) [d (base + n)]
        rw [load_add, load_store_disjoint _ _ (Or.inl le_rfl), hload]
        exact congrArg (kept ++ ·) hnew
      · rw [store_of_outside _ _ (by simp only [List.length_singleton]; omega)]
        exact hout x (by omega)

theorem compact_load (removed : ℕ → Bool) (base used : ℕ) (d : ℕ → α) :
    load (compact removed base used d) base (keepFrom removed 0 (load d base used)).length =
      keepFrom removed 0 (load d base used) :=
  (compact_invariant removed base used d).2.1

theorem compact_outside (removed : ℕ → Bool) (base used : ℕ) (d : ℕ → α) {x : ℕ}
    (hx : x < base ∨ base + used ≤ x) : compact removed base used d x = d x := by
  have hi := compact_invariant removed base used d
  exact hi.2.2 x (by have := hi.1; omega)

theorem compact_none {removed : ℕ → Bool} {base used : ℕ} {d : ℕ → α}
    (h : ∀ j < used, removed j = false) : compact removed base used d = d := by
  have hfold : (List.range used).foldl (compactStep removed base) (0, d) = (0, d) := by
    induction used with
    | zero => rfl
    | succ n ih =>
      rw [List.range_succ, List.foldl_append, ih fun j hj => h j (by omega)]
      have hsame : store d (base + n) [d (base + n)] = d := store_load d (base + n) 1
      simp [compactStep, h n (Nat.lt_succ_self n), hsame]
  rw [compact, hfold]

end BspOnMpi.Lib
