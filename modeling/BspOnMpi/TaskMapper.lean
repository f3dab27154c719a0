import Mathlib.Data.List.Range
import Mathlib.Logic.Function.Basic
import Mathlib.Tactic.Ring

/-! The task mapper. `TaskMapper.h`: which node runs which logical processors. The constructor
calls its own `where_is`, so that every mapping is in blocks of `⌈processors / nnodes⌉`. -/

namespace BspOnMpi.Mapper

def icd (j k : ℕ) : ℕ := (j + k - 1) / k

structure TaskMapper where
  processors : ℕ
  whereIsNode : ℕ → ℕ
  whereIsLocal : ℕ → ℕ
  whereIsLocalHere : ℕ → Option ℕ
  procsOnNode : ℕ → ℕ
  whichGlobal : ℕ → Option ℕ
  procsOnThisNode : ℕ
  maxProcsPerNode : ℕ

def whereIs (processors nnodes globalPid : ℕ) : ℕ × ℕ :=
  let mppn := icd processors nnodes
  let node := globalPid / mppn
  (node, globalPid - node * mppn)

def place (processors nnodes myNode : ℕ) (t : TaskMapper) (p : ℕ) : TaskMapper :=
  let n := (whereIs processors nnodes p).1
  let lp := (whereIs processors nnodes p).2
  { t with
    whereIsNode := Function.update t.whereIsNode p n
    whereIsLocal := Function.update t.whereIsLocal p lp
    whereIsLocalHere := Function.update t.whereIsLocalHere p (if n = myNode then some lp else none)
    procsOnNode := Function.update t.procsOnNode n (t.procsOnNode n + 1)
    procsOnThisNode := if n = myNode then t.procsOnThisNode + 1 else t.procsOnThisNode
    maxProcsPerNode := max t.maxProcsPerNode (t.procsOnNode n + 1) }

def placeAll (processors nnodes myNode k : ℕ) : TaskMapper :=
  (List.range k).foldl (place processors nnodes myNode)
    { processors := processors
      whereIsNode := fun _ => 0
      whereIsLocal := fun _ => 0
      whereIsLocalHere := fun _ => none
      procsOnNode := fun _ => 0
      whichGlobal := fun _ => none
      procsOnThisNode := 0
      maxProcsPerNode := 0 }

def fillGlobal (t : TaskMapper) (k : ℕ) : ℕ → Option ℕ :=
  (List.range k).foldl (fun whichGlobal p =>
    Function.update whichGlobal (t.whereIsNode p * t.maxProcsPerNode + t.whereIsLocal p) (some p))
    fun _ => none

def taskMapper (processors nnodes myNode : ℕ) : TaskMapper :=
  let t := placeAll processors nnodes myNode processors
  { t with whichGlobal := fillGlobal t processors }

namespace TaskMapper

def nprocs (t : TaskMapper) : ℕ := t.processors
def procsPerNode (t : TaskMapper) : ℕ := t.maxProcsPerNode
def procsThisNode (t : TaskMapper) : ℕ := t.procsOnThisNode
def globalToNode (t : TaskMapper) (globalPid : ℕ) : ℕ := t.whereIsNode globalPid
def globalToLocal (t : TaskMapper) (globalPid : ℕ) : ℕ := t.whereIsLocal globalPid
def globalToLocalPid (t : TaskMapper) (globalPid : ℕ) : Option ℕ := t.whereIsLocalHere globalPid

def localToGlobalPid (t : TaskMapper) (node localPid : ℕ) : Option ℕ :=
  t.whichGlobal (t.maxProcsPerNode * node + localPid)

/-- `get_context (localPid)` on a node, for contexts given by their global pids. -/
def getContext {C : Type} (t : TaskMapper) (w : ℕ → C) (node localPid : ℕ) : C :=
  w ((t.localToGlobalPid node localPid).getD 0)

end TaskMapper

section Tables

variable {processors nnodes myNode : ℕ}

theorem whereIs_eq (p : ℕ) : whereIs processors nnodes p =
    (p / icd processors nnodes, p % icd processors nnodes) := by
  have hdm := Nat.div_add_mod' p (icd processors nnodes)
  simp only [whereIs, Prod.mk.injEq, true_and]
  omega

theorem block_other {m p n : ℕ} (h : n ≠ p / m) : min m (p + 1 - n * m) = min m (p - n * m) := by
  by_cases hm : m = 0
  · subst hm
    simp
  have hdm := Nat.div_add_mod p m
  have hlt := Nat.mod_lt p (Nat.pos_of_ne_zero hm)
  rw [Nat.mul_comm] at hdm
  rcases Nat.lt_or_gt_of_ne h with hn | hn
  · have hle := Nat.mul_le_mul_right m (Nat.succ_le_of_lt hn)
    rw [Nat.succ_mul] at hle
    omega
  · have hle := Nat.mul_le_mul_right m (Nat.succ_le_of_lt hn)
    rw [Nat.succ_mul] at hle
    omega

structure Placed (processors nnodes myNode k : ℕ) (t : TaskMapper) : Prop where
  nprocs : t.processors = processors
  node : ∀ p < k, t.whereIsNode p = p / icd processors nnodes
  localPid : ∀ p < k, t.whereIsLocal p = p % icd processors nnodes
  onNode : ∀ n, t.procsOnNode n =
    min (icd processors nnodes) (k - n * icd processors nnodes)
  onThis : t.procsOnThisNode =
    min (icd processors nnodes) (k - myNode * icd processors nnodes)
  most : t.maxProcsPerNode = min (icd processors nnodes) k

theorem placeAll_placed (hm : 0 < icd processors nnodes) (myNode k : ℕ) :
    Placed processors nnodes myNode k (placeAll processors nnodes myNode k) := by
  induction k with
  | zero => exact ⟨rfl, by simp, by simp, by simp [placeAll], by simp [placeAll], by
    simp [placeAll]⟩
  | succ k ih =>
    rw [placeAll, List.range_succ, List.foldl_append, List.foldl_cons, List.foldl_nil, ← placeAll]
    generalize placeAll processors nnodes myNode k = t at ih ⊢
    have hdm := Nat.div_add_mod k (icd processors nnodes)
    have hlt := Nat.mod_lt k hm
    rw [Nat.mul_comm] at hdm
    simp only [place, whereIs_eq]
    refine ⟨ih.nprocs, fun p hp => ?_, fun p hp => ?_, fun n => ?_, ?_, ?_⟩
    · by_cases hpk : p = k
      · simp [hpk]
      · simp [Function.update_of_ne hpk, ih.node p (by omega)]
    · by_cases hpk : p = k
      · simp [hpk]
      · simp [Function.update_of_ne hpk, ih.localPid p (by omega)]
    · by_cases hn : n = k / icd processors nnodes
      · subst hn
        simp only [Function.update_self, ih.onNode]
        omega
      · simp only [Function.update_of_ne hn, ih.onNode]
        exact (block_other hn).symm
    · by_cases hn : k / icd processors nnodes = myNode
      · simp only [if_pos hn, ih.onThis]
        rw [← hn]
        omega
      · simp only [if_neg hn, ih.onThis]
        exact (block_other (Ne.symm hn)).symm
    · simp only [ih.most, ih.onNode]
      rcases Nat.lt_or_ge k (icd processors nnodes) with hk | hk
      · have h0 : k / icd processors nnodes = 0 := Nat.div_eq_of_lt hk
        rw [h0]
        omega
      · omega

theorem index_injective {m p q : ℕ} (h : p / m * m + p % m = q / m * m + q % m) : p = q := by
  have hp := Nat.div_add_mod p m
  have hq := Nat.div_add_mod q m
  rw [Nat.mul_comm] at hp hq
  omega

theorem fillGlobal_spec {t : TaskMapper} {m k : ℕ} (hmost : t.maxProcsPerNode = m)
    (hnode : ∀ p < k, t.whereIsNode p = p / m) (hlocal : ∀ p < k, t.whereIsLocal p = p % m)
    {p : ℕ} (hp : p < k) : fillGlobal t k p = some p := by
  induction k with
  | zero => omega
  | succ k ih =>
    rw [fillGlobal, List.range_succ, List.foldl_append, List.foldl_cons, List.foldl_nil,
      ← fillGlobal, hmost, hnode k (by omega), hlocal k (by omega)]
    have hk := Nat.div_add_mod' k m
    rw [hk]
    by_cases hpk : p = k
    · simp [hpk]
    · rw [Function.update_of_ne hpk]
      exact ih (fun q hq => hnode q (by omega)) (fun q hq => hlocal q (by omega)) (by omega)

structure Mapped (processors nnodes : ℕ) : Prop where
  processors_pos : 0 < processors
  nnodes_pos : 0 < nnodes

section Mapped

variable (h : Mapped processors nnodes)

include h

theorem icd_pos : 0 < icd processors nnodes := by
  have h1 := h.processors_pos
  have h2 := h.nnodes_pos
  exact Nat.div_pos (by omega) h2

theorem icd_le : icd processors nnodes ≤ processors := by
  have h1 := h.processors_pos
  have h2 := h.nnodes_pos
  apply Nat.le_of_lt_succ
  rw [icd, Nat.div_lt_iff_lt_mul h2]
  have hmul : processors + nnodes ≤ processors * nnodes + nnodes + 0 := by
    have := Nat.le_mul_of_pos_right processors h2
    omega
  rw [Nat.succ_mul]
  omega

theorem le_icd_mul : processors ≤ nnodes * icd processors nnodes := by
  have h2 := h.nnodes_pos
  have hdm := Nat.div_add_mod (processors + nnodes - 1) nnodes
  have hlt := Nat.mod_lt (processors + nnodes - 1) h2
  rw [icd]
  omega

theorem taskMapper_nprocs (myNode : ℕ) :
    (taskMapper processors nnodes myNode).nprocs = processors :=
  (placeAll_placed (icd_pos h) myNode processors).nprocs

theorem globalToNode_eq (myNode : ℕ) {p : ℕ} (hp : p < processors) :
    (taskMapper processors nnodes myNode).globalToNode p = p / icd processors nnodes :=
  (placeAll_placed (icd_pos h) myNode processors).node p hp

theorem globalToLocal_eq (myNode : ℕ) {p : ℕ} (hp : p < processors) :
    (taskMapper processors nnodes myNode).globalToLocal p = p % icd processors nnodes :=
  (placeAll_placed (icd_pos h) myNode processors).localPid p hp

theorem procsPerNode_eq (myNode : ℕ) :
    (taskMapper processors nnodes myNode).procsPerNode = icd processors nnodes := by
  have hmost := (placeAll_placed (icd_pos h) myNode processors).most
  rw [Nat.min_eq_left (icd_le h)] at hmost
  exact hmost

theorem procsThisNode_eq : (taskMapper processors nnodes myNode).procsThisNode =
    min (icd processors nnodes) (processors - myNode * icd processors nnodes) :=
  (placeAll_placed (icd_pos h) myNode processors).onThis

theorem localToGlobalPid_eq {node lp : ℕ} (hlp : node * icd processors nnodes + lp < processors) :
    (taskMapper processors nnodes myNode).localToGlobalPid node lp =
      some (node * icd processors nnodes + lp) := by
  have hplaced := placeAll_placed (icd_pos h) myNode processors
  have hmost := hplaced.most
  rw [Nat.min_eq_left (icd_le h)] at hmost
  have hspec := fillGlobal_spec hmost hplaced.node hplaced.localPid hlp
  have hproc := procsPerNode_eq h myNode
  rw [TaskMapper.procsPerNode] at hproc
  rw [TaskMapper.localToGlobalPid, hproc, Nat.mul_comm]
  exact hspec

theorem node_lt {p : ℕ} (hp : p < processors) : p / icd processors nnodes < nnodes := by
  rw [Nat.div_lt_iff_lt_mul (icd_pos h)]
  exact lt_of_lt_of_le hp (le_icd_mul h)

theorem globalToLocal_lt (myNode : ℕ) {p : ℕ} (hp : p < processors)
    (hnode : p / icd processors nnodes = myNode) :
    (taskMapper processors nnodes myNode).globalToLocal p <
      (taskMapper processors nnodes myNode).procsThisNode := by
  have hdm := Nat.div_add_mod p (icd processors nnodes)
  have hlt := Nat.mod_lt p (icd_pos h)
  rw [Nat.mul_comm, hnode] at hdm
  rw [globalToLocal_eq h _ hp, procsThisNode_eq h]
  omega

theorem getContext_eq {C : Type} (w : ℕ → C) {lp : ℕ}
    (hlp : lp < (taskMapper processors nnodes myNode).procsThisNode) :
    (taskMapper processors nnodes myNode).getContext w myNode lp =
      w (myNode * icd processors nnodes + lp) := by
  rw [procsThisNode_eq h] at hlp
  rw [TaskMapper.getContext, localToGlobalPid_eq h (by omega), Option.getD_some]

theorem mod_lt_procs {p : ℕ} (hp : p < processors) : p % icd processors nnodes <
    (taskMapper processors nnodes (p / icd processors nnodes)).procsThisNode := by
  have hlt := globalToLocal_lt h (p / icd processors nnodes) hp rfl
  rwa [globalToLocal_eq h _ hp] at hlt

theorem local_global {lp : ℕ} (hlp : lp < (taskMapper processors nnodes myNode).procsThisNode) :
    myNode * icd processors nnodes + lp < processors ∧
      (myNode * icd processors nnodes + lp) / icd processors nnodes = myNode ∧
      (myNode * icd processors nnodes + lp) % icd processors nnodes = lp := by
  rw [procsThisNode_eq h] at hlp
  have hlt : lp < icd processors nnodes := by omega
  refine ⟨by omega, ?_, ?_⟩
  · rw [Nat.mul_comm, Nat.mul_add_div (by omega), Nat.div_eq_of_lt hlt, Nat.add_zero]
  · rw [Nat.mul_comm, Nat.mul_add_mod, Nat.mod_eq_of_lt hlt]

end Mapped

end Tables

end BspOnMpi.Mapper
