import Mathlib.Data.List.Basic

/-! Histories. A history is the list of all events so far, the latest last. Some events start a
new period; what matters afterwards are the events since then. -/

namespace BspOnMpi.Lib

variable {α : Type*}

/-- The events after the last one that satisfies `stop`, or all of them. -/
def since (stop : α → Bool) (h : List α) : List α :=
  (h.reverse.takeWhile fun a => !stop a).reverse

def lastStop (stop : α → Bool) (h : List α) : Option (List α × α) :=
  match h.reverse.dropWhile fun a => !stop a with
  | [] => none
  | a :: rest => some (rest.reverse, a)

section Extend

variable {stop : α → Bool} {a : α}

@[simp] theorem since_nil (stop : α → Bool) : since stop [] = [] := rfl

@[simp] theorem lastStop_nil (stop : α → Bool) : lastStop stop [] = none := rfl

theorem since_stop (h : List α) (ha : stop a = true) : since stop (h ++ [a]) = [] := by
  simp [since, ha]

theorem since_go (h : List α) (ha : stop a = false) :
    since stop (h ++ [a]) = since stop h ++ [a] := by
  simp [since, ha]

theorem lastStop_stop (h : List α) (ha : stop a = true) :
    lastStop stop (h ++ [a]) = some (h, a) := by
  simp [lastStop, ha]

theorem lastStop_go (h : List α) (ha : stop a = false) :
    lastStop stop (h ++ [a]) = lastStop stop h := by
  simp [lastStop, ha]

end Extend

end BspOnMpi.Lib
