import Mathlib.Data.List.Basic
import Mathlib.Data.List.Range

/-! Folds that may be split. A fold over a range of indices that is carried out in pieces: a piece
is folded into the result of the pieces before it, or into a result of its own that is joined to
theirs afterwards. Such a result starts with whatever the function `neutral` makes of the value it
finds. -/

namespace BspOnMpi.Lib

variable {α : Type*}

/-- How the indices from `b` on below `e` are worked through. A fork carries the value
that the separate result has before it is made neutral. -/
inductive Split (α : Type*) : ℕ → ℕ → Type _
  | chunk {b e : ℕ} (h : b < e) : Split α b e
  | sequence {b m e : ℕ} (l : Split α b m) (r : Split α m e) : Split α b e
  | fork {b m e : ℕ} (junk : α) (l : Split α b m) (r : Split α m e) : Split α b e

def between (f : ℕ → α) (b e : ℕ) : List α := (List.range' b (e - b)).map f

theorem between_append (f : ℕ → α) {b m e : ℕ} (h1 : b ≤ m) (h2 : m ≤ e) :
    between f b m ++ between f m e = between f b e := by
  have hm : b + (m - b) = m := by omega
  have he : m - b + (e - m) = e - b := by omega
  have happ := List.range'_append_1 (s := b) (m := m - b) (n := e - m)
  rw [hm, he] at happ
  rw [between, between, ← List.map_append, happ, between]

theorem between_getD (xs : List α) (d : α) : between (fun i => xs.getD i d) 0 xs.length = xs := by
  apply List.ext_getElem (by simp [between])
  intro i h1 h2
  simp [between, h2]

namespace Split

theorem lt {b e : ℕ} (t : Split α b e) : b < e := by
  induction t with
  | chunk h => exact h
  | sequence l r hl hr => exact hl.trans hr
  | fork junk l r hl hr => exact hl.trans hr

def forks {b e : ℕ} : Split α b e → ℕ
  | chunk _ => 0
  | sequence l r => l.forks + r.forks
  | fork _ l r => l.forks + r.forks + 1

def map {β : Type*} (g : α → β) {b e : ℕ} : Split α b e → Split β b e
  | chunk h => chunk h
  | sequence l r => sequence (l.map g) (r.map g)
  | fork junk l r => fork (g junk) (l.map g) (r.map g)

section Run

variable (op : α → α → α) (neutral : α → α) (f : ℕ → α)

def run {b e : ℕ} : Split α b e → α → α
  | chunk _, result => (between f b e).foldl op result
  | sequence l r, result => r.run (l.run result)
  | fork junk l r, result => op (l.run result) (r.run (neutral junk))

end Run

theorem run_neutral_congr {β : Type*} (op : α → α → α) (neutral neutral' : α → α) (f : ℕ → α)
    (g : β → α) (h : ∀ x, neutral (g x) = neutral' (g x)) {b e : ℕ} (t : Split β b e) (result : α) :
    (t.map g).run op neutral f result = (t.map g).run op neutral' f result := by
  induction t generalizing result with
  | chunk => rfl
  | sequence l r hl hr => rw [map, run, run, hl, hr]
  | fork junk l r hl hr => rw [map, run, run, hl, hr, h]

end Split

/-- The operation is associative, and what `neutral` makes of any value is its identity. -/
structure Monoidal (op : α → α → α) (neutral : α → α) : Prop where
  assoc : ∀ x y z, op (op x y) z = op x (op y z)
  neutral_left : ∀ v x, op (neutral v) x = x
  neutral_right : ∀ v x, op x (neutral v) = x

section Monoidal

variable {op : α → α → α} {neutral : α → α} (h : Monoidal op neutral)

include h

theorem Monoidal.neutral_eq (u v : α) : neutral u = neutral v := by
  rw [← h.neutral_right v (neutral u), h.neutral_left]

theorem Monoidal.op_foldl (x v : α) (ys : List α) :
    op x (ys.foldl op (neutral v)) = ys.foldl op x := by
  induction ys using List.reverseRecOn with
  | nil => exact h.neutral_right v x
  | append_singleton ys y ih =>
    rw [List.foldl_append, List.foldl_append, List.foldl_cons, List.foldl_cons, List.foldl_nil,
      List.foldl_nil, ← h.assoc, ih]

/-- However it is split, the fold is the fold from left to right. -/
theorem Monoidal.run_eq (f : ℕ → α) {b e : ℕ} (t : Split α b e) (result : α) :
    t.run op neutral f result = (between f b e).foldl op result := by
  induction t generalizing result with
  | chunk => rfl
  | sequence l r hl hr =>
    rw [Split.run, hl, hr, ← List.foldl_append, between_append f l.lt.le r.lt.le]
  | fork junk l r hl hr =>
    rw [Split.run, hl, hr, h.op_foldl, ← List.foldl_append, between_append f l.lt.le r.lt.le]

end Monoidal

/-- The result is one of the two values, and `le` any of them. -/
structure Selecting (op : α → α → α) (le : α → α → Prop) : Prop where
  trans : ∀ x y z, le x y → le y z → le x z
  selects : ∀ x y, op x y = x ∨ op x y = y
  left : ∀ x y, le (op x y) x
  right : ∀ x y, le (op x y) y

theorem Selecting.foldl {op : α → α → α} {le : α → α → Prop} (h : Selecting op le) (x : α)
    (xs : List α) : xs.foldl op x ∈ x :: xs ∧ ∀ y ∈ x :: xs, le (xs.foldl op x) y := by
  have hrefl : ∀ y, le y y := by
    intro y
    rcases h.selects y y with heq | heq
    · simpa only [heq] using h.left y y
    · simpa only [heq] using h.left y y
  induction xs using List.reverseRecOn with
  | nil => simpa using hrefl x
  | append_singleton xs y ih =>
    obtain ⟨hmem, hle⟩ := ih
    rw [List.foldl_append, List.foldl_cons, List.foldl_nil, ← List.cons_append]
    constructor
    · rcases h.selects (xs.foldl op x) y with heq | heq
      · rw [heq]
        exact List.mem_append_left _ hmem
      · rw [heq]
        exact List.mem_append_right _ (List.mem_singleton_self y)
    · intro z hz
      rcases List.mem_append.mp hz with hz | hz
      · exact h.trans _ _ _ (h.left _ _) (hle z hz)
      · rw [List.mem_singleton.mp hz]
        exact h.right _ _

end BspOnMpi.Lib
