import BspOnMpi.Lib.Block

/-! Transfers in sequence. A list of transfers is meant to happen at once: every one stores what
the block held at the beginning. Taken one after the other they do so, for destinations that do
not overlap, exactly if no transfer reads a cell that an earlier one is to change. -/

namespace BspOnMpi.Lib

variable {α : Type*}

def Apart (r s : ℕ × ℕ) : Prop :=
  ∀ x, ¬ ((r.1 ≤ x ∧ x < r.1 + r.2) ∧ s.1 ≤ x ∧ x < s.1 + s.2)

theorem Apart.symm {r s : ℕ × ℕ} (h : Apart r s) : Apart s r := fun x hx => h x ⟨hx.2, hx.1⟩

def reach (w : ℕ × List α) : ℕ × ℕ := (w.1, w.2.length)

def Scattered (ws : List (ℕ × List α)) : Prop := ws.Pairwise fun w v => Apart (reach w) (reach v)

section Stores

variable {d : ℕ → α} {ws : List (ℕ × List α)} {w : ℕ × List α} {a n x : ℕ}

theorem writeAll_reached (hws : Scattered ws) (hw : w ∈ ws) (hx : w.1 ≤ x ∧ x < w.1 + w.2.length) :
    writeAll d ws x = store d w.1 w.2 x := by
  refine writeAll_of_agree (f := store d w.1 w.2) d (fun v hv h1 h2 => ?_) ⟨w, hw, hx⟩
  by_cases heq : v = w
  · subst heq
    exact (store_of_mem d h1 h2).symm
  · have hsymm : Std.Symm fun w v : ℕ × List α => Apart (reach w) (reach v) := ⟨fun _ _ h => h.symm⟩
    have hapart := hws.forall hv hw heq
    exact absurd ⟨⟨h1, show x < v.1 + v.2.length by omega⟩, hx⟩ (hapart x)

theorem load_writeAll_mem (hws : Scattered ws) (hw : w ∈ ws) :
    load (writeAll d ws) w.1 w.2.length = w.2 := by
  rw [← load_store_same d w.1 w.2, load_store_same d w.1 w.2]
  refine Eq.trans (load_congr fun i hi => ?_) (load_store_same d w.1 w.2)
  exact writeAll_reached hws hw ⟨by omega, by omega⟩

theorem load_writeAll_iff (hws : Scattered ws) :
    load (writeAll d ws) a n = load d a n ↔ ∀ w ∈ ws, load (store d w.1 w.2) a n = load d a n := by
  simp only [load_eq_iff]
  constructor
  · intro h w hw i hi
    by_cases hx : w.1 ≤ a + i ∧ a + i < w.1 + w.2.length
    · rw [← writeAll_reached hws hw hx, h i hi]
    · exact store_of_outside d w.2 (by omega)
  · intro h i hi
    by_cases hreach : ∃ w ∈ ws, w.1 ≤ a + i ∧ a + i < w.1 + w.2.length
    · obtain ⟨w, hw, hx⟩ := hreach
      rw [writeAll_reached hws hw hx, h w hw i hi]
    · apply writeAll_of_outside d
      intro w hw
      by_contra hin
      exact hreach ⟨w, hw, by omega, by omega⟩

theorem load_writeAll_apart (hws : ∀ w ∈ ws, Apart (reach w) (a, n)) :
    load (writeAll d ws) a n = load d a n := by
  refine load_congr fun i hi => writeAll_of_outside d fun w hw => ?_
  by_contra hin
  exact hws w hw (a + i) ⟨⟨by simp only [reach]; omega, by simp only [reach]; omega⟩,
    by simp, by simp [hi]⟩

end Stores

inductive Transfer (α : Type*)
  | copy (src dst n : ℕ)
  | write (dst : ℕ) (xs : List α)

namespace Transfer

def stores (d : ℕ → α) : Transfer α → ℕ × List α
  | copy src dst n => (dst, load d src n)
  | write dst xs => (dst, xs)

def apply (d : ℕ → α) (t : Transfer α) : ℕ → α := store d (t.stores d).1 (t.stores d).2

def Spared (d : ℕ → α) (w : ℕ × List α) : Transfer α → Prop
  | copy src _ n => load (store d w.1 w.2) src n = load d src n
  | write .. => True

end Transfer

def transferAll (d : ℕ → α) (ts : List (Transfer α)) : ℕ → α := ts.foldl Transfer.apply d

/-- No transfer reads what an earlier one is to change. -/
def Undisturbed (d : ℕ → α) (ts : List (Transfer α)) : Prop :=
  ts.Pairwise fun t u => u.Spared d (t.stores d)

def Simultaneous (d e : ℕ → α) (ts : List (Transfer α)) : Prop :=
  ∀ t ∈ ts, load e (t.stores d).1 (t.stores d).2.length = (t.stores d).2

section Transfers

variable {d : ℕ → α} {ts us : List (Transfer α)} {t : Transfer α}

theorem reach_stores (d e : ℕ → α) (t : Transfer α) : reach (t.stores d) = reach (t.stores e) := by
  cases t with
  | copy => simp [reach, Transfer.stores]
  | write => rfl

theorem transferAll_append (d : ℕ → α) (ts us : List (Transfer α)) :
    transferAll d (ts ++ us) = transferAll (transferAll d ts) us := List.foldl_append

theorem transferAll_of_outside {x : ℕ}
    (h : ∀ t ∈ ts, ¬ ((t.stores d).1 ≤ x ∧ x < (t.stores d).1 + (t.stores d).2.length)) :
    transferAll d ts x = d x := by
  induction ts using List.reverseRecOn with
  | nil => rfl
  | append_singleton ts t ih =>
    have hlast := h t (by simp)
    obtain ⟨hdst, hlength⟩ := Prod.ext_iff.mp (reach_stores d (transferAll d ts) t)
    simp only [reach] at hdst hlength
    rw [hdst, hlength] at hlast
    rw [transferAll_append]
    exact (store_of_outside _ _ (by omega)).trans (ih fun u hu => h u (List.mem_append_left _ hu))

theorem stores_writeAll_iff (hts : Scattered (ts.map (Transfer.stores d))) :
    t.stores (writeAll d (ts.map (Transfer.stores d))) = t.stores d ↔
      ∀ u ∈ ts, t.Spared d (u.stores d) := by
  cases t with
  | copy src dst n =>
    have hiff := load_writeAll_iff (d := d) (a := src) (n := n) hts
    simp only [List.mem_map, forall_exists_index, and_imp, forall_apply_eq_imp_iff₂] at hiff
    simpa [Transfer.stores, Transfer.Spared] using hiff
  | write => simp [Transfer.stores, Transfer.Spared]

theorem undisturbed_append : Undisturbed d (ts ++ [t]) ↔
    Undisturbed d ts ∧ ∀ u ∈ ts, t.Spared d (u.stores d) := by
  simp [Undisturbed, List.pairwise_append]

theorem transferAll_undisturbed (hts : Scattered (ts.map (Transfer.stores d)))
    (h : Undisturbed d ts) : transferAll d ts = writeAll d (ts.map (Transfer.stores d)) := by
  induction ts using List.reverseRecOn with
  | nil => rfl
  | append_singleton ts t ih =>
    rw [List.map_append, Scattered, List.pairwise_append] at hts
    obtain ⟨hbefore, hspared⟩ := undisturbed_append.mp h
    rw [transferAll_append, ih hts.1 hbefore, List.map_append, writeAll_append]
    have hstores := (stores_writeAll_iff hts.1).mpr hspared
    simp only [transferAll, List.foldl_cons, List.foldl_nil, Transfer.apply, hstores, List.map_cons,
      List.map_nil, writeAll_cons, writeAll_nil]

theorem simultaneous_writeAll {e : ℕ → α} {ws : List (ℕ × List α)}
    (hws : ∀ t ∈ ts, ∀ w ∈ ws, Apart (reach w) (reach (t.stores d))) :
    Simultaneous d (writeAll e ws) ts ↔ Simultaneous d e ts := by
  apply forall₂_congr
  intro t ht
  rw [load_writeAll_apart (hws t ht)]

/-- Taken one after the other, transfers with disjoint destinations do what they are meant to
exactly if they are undisturbed. -/
theorem simultaneous_iff (hts : Scattered (ts.map (Transfer.stores d))) :
    Simultaneous d (transferAll d ts) ts ↔ Undisturbed d ts := by
  constructor
  · intro h
    induction ts using List.reverseRecOn with
    | nil => exact List.Pairwise.nil
    | append_singleton ts t ih =>
      rw [List.map_append, Scattered, List.pairwise_append] at hts
      have hlast : transferAll d (ts ++ [t]) =
          writeAll (transferAll d ts) [t.stores (transferAll d ts)] := transferAll_append d ts [t]
      rw [hlast] at h
      -- the last transfer leaves the destinations of the others alone
      have hbefore : Undisturbed d ts := by
        refine ih hts.1 ((simultaneous_writeAll fun u hu w hw => ?_).mp
          fun u hu => h u (List.mem_append_left _ hu))
        rw [List.mem_singleton.mp hw, reach_stores (transferAll d ts) d]
        exact (hts.2.2 _ (List.mem_map_of_mem hu) (t.stores d) (by simp)).symm
      refine undisturbed_append.mpr ⟨hbefore, ?_⟩
      rw [← stores_writeAll_iff hts.1, ← transferAll_undisturbed hts.1 hbefore]
      obtain ⟨hdst, hlength⟩ := Prod.ext_iff.mp (reach_stores d (transferAll d ts) t)
      have hown := h t (by simp)
      simp only [reach] at hdst hlength
      rw [hdst, hlength] at hown
      exact Prod.ext hdst.symm ((load_store_same _ _ _).symm.trans hown)
  · intro h t ht
    rw [transferAll_undisturbed hts h]
    exact load_writeAll_mem hts (List.mem_map_of_mem ht)

end Transfers

end BspOnMpi.Lib
