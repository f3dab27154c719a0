import Mathlib.Data.List.Chain
import Mathlib.Data.List.Basic

/-! Linked lists with relative links. A list threaded through a block of memory whose links are
distances: the element at address `a` is followed by the one at `a + next a`. A reader is given
the first address and the number of elements, so the link of the last element is never followed
and may hold anything. -/

namespace BspOnMpi.Lib

variable {β : Type*}

def walk (next : ℕ → ℕ) : ℕ → ℕ → List ℕ
  | 0, _ => []
  | n + 1, p => p :: walk next n (p + next p)

/-- The loop `for (i = 0; i < n; i++) { body; p += next; }`. -/
def eachElement (next : ℕ → ℕ) (body : β → ℕ → β) : ℕ → ℕ → β → β
  | 0, _, b => b
  | n + 1, p, b => eachElement next body n (p + next p) (body b p)

def Linked (next : ℕ → ℕ) (ps : List ℕ) : Prop := ps.IsChain fun a b => a + next a = b

theorem eachElement_eq_foldl (next : ℕ → ℕ) (body : β → ℕ → β) (n p : ℕ) (b : β) :
    eachElement next body n p b = (walk next n p).foldl body b := by
  induction n generalizing p b with
  | zero => rfl
  | succ n ih => exact ih _ _

theorem walk_linked {next : ℕ → ℕ} {ps : List ℕ} {p : ℕ} (hl : Linked next ps)
    (hp : ∀ a ∈ ps.head?, p = a) : walk next ps.length p = ps := by
  induction ps generalizing p with
  | nil => rfl
  | cons a ps ih =>
    have ha : p = a := hp a (by simp)
    subst ha
    have hc := List.isChain_cons.mp hl
    simp only [List.length_cons, walk]
    rw [ih hc.2 hc.1]

theorem eachElement_linked {next : ℕ → ℕ} {ps : List ℕ} {p : ℕ} (body : β → ℕ → β) (b : β)
    (hl : Linked next ps) (hp : ∀ a ∈ ps.head?, p = a) :
    eachElement next body ps.length p b = ps.foldl body b := by
  rw [eachElement_eq_foldl, walk_linked hl hp]

theorem Linked.congr {next next' : ℕ → ℕ} {ps : List ℕ} (hl : Linked next ps)
    (h : ∀ a ∈ ps.dropLast, next' a = next a) : Linked next' ps := by
  induction ps with
  | nil => exact List.isChain_nil
  | cons a ps ih =>
    cases ps with
    | nil => exact List.isChain_singleton a
    | cons b ps =>
      have hc := List.isChain_cons_cons.mp hl
      refine List.isChain_cons_cons.mpr ⟨?_, ih hc.2 fun x hx => h x ?_⟩
      · rw [h a (by simp)]
        exact hc.1
      · simp only [List.dropLast_cons_cons, List.mem_cons]
        exact Or.inr hx

theorem linked_append {next : ℕ → ℕ} {ps qs : List ℕ} : Linked next (ps ++ qs) ↔
    Linked next ps ∧ Linked next qs ∧ ∀ a ∈ ps.getLast?, ∀ b ∈ qs.head?, a + next a = b :=
  List.isChain_append

theorem linked_map_add {next : ℕ → ℕ} {ps : List ℕ} (base : ℕ) :
    Linked next (ps.map (base + ·)) ↔ Linked (fun k => next (base + k)) ps := by
  unfold Linked
  rw [List.isChain_map]
  apply List.IsChain.iff
  intro a b
  show base + a + next (base + a) = base + b ↔ a + next (base + a) = b
  omega

theorem dropLast_lt_getLast {ps : List ℕ} (h : ps.Pairwise (· < ·)) {a z : ℕ}
    (ha : a ∈ ps.dropLast) (hz : z ∈ ps.getLast?) : a < z := by
  rw [← List.dropLast_append_getLast? z hz, List.pairwise_append] at h
  exact h.2.2 a ha z (List.mem_singleton.mpr rfl)

end BspOnMpi.Lib
