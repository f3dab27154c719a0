import BspOnMpi.TaskMapper
import Mathlib.Algebra.BigOperators.Group.Finset.Basic
import Mathlib.Algebra.Order.BigOperators.Group.Finset
import Mathlib.Order.Lattice.Nat

/-! The tables of the task mapper. `where_is` gives each node a block of `⌈processors / nnodes⌉`
consecutive processors. The five tables agree with each other for all numbers of processors and
nodes, but the last blocks can be short or missing. -/

open scoped BigOperators

namespace BspOnMpi.MapperTables
open Mapper

/-- The processors that run on a node, counted from `global_to_node`. -/
def onNode (t : TaskMapper) (node : ℕ) : Finset ℕ :=
  (Finset.range t.nprocs).filter fun p => t.globalToNode p = node

section Blocks

variable {processors m : ℕ}

theorem block_image (hm : 0 < m) (node : ℕ) :
    ((Finset.range processors).filter fun p => p / m = node) =
      (Finset.range (min m (processors - node * m))).image fun lp => node * m + lp := by
  ext p
  have hdm := Nat.div_add_mod p m
  have hlt := Nat.mod_lt p hm
  rw [Nat.mul_comm] at hdm
  simp only [Finset.mem_filter, Finset.mem_range, Finset.mem_image]
  constructor
  · rintro ⟨hp, rfl⟩
    exact ⟨p % m, by omega, hdm⟩
  · rintro ⟨lp, hlp, rfl⟩
    have hdiv : (node * m + lp) / m = node := by
      rw [Nat.mul_comm, Nat.mul_add_div hm, Nat.div_eq_of_lt (by omega), Nat.add_zero]
    exact ⟨by omega, hdiv⟩

theorem block_card (hm : 0 < m) (node : ℕ) :
    ((Finset.range processors).filter fun p => p / m = node).card =
      min m (processors - node * m) := by
  rw [block_image hm, Finset.card_image_of_injective _ (add_right_injective _), Finset.card_range]

theorem block_locals (hm : 0 < m) (node : ℕ) :
    ((Finset.range processors).filter fun p => p / m = node).image (fun p => p % m) =
      Finset.range (min m (processors - node * m)) := by
  rw [block_image hm, Finset.image_image]
  ext lp
  simp only [Finset.mem_image, Finset.mem_range, Function.comp_apply]
  have hmod : ∀ l < m, (node * m + l) % m = l := by
    intro l hl
    rw [Nat.mul_comm, Nat.mul_add_mod, Nat.mod_eq_of_lt hl]
  constructor
  · rintro ⟨l, hl, rfl⟩
    rw [hmod l (by omega)]
    exact hl
  · intro hlp
    exact ⟨lp, hlp, hmod lp (by omega)⟩

end Blocks

section Tables

variable {processors nnodes myNode : ℕ}

theorem placeAll_here (k : ℕ) : ∀ p < k,
    (placeAll processors nnodes myNode k).whereIsLocalHere p =
      if p / icd processors nnodes = myNode then some (p % icd processors nnodes) else none := by
  induction k with
  | zero => intro p hp; omega
  | succ k ih =>
    intro p hp
    rw [placeAll, List.range_succ, List.foldl_append, List.foldl_cons, List.foldl_nil, ← placeAll]
    simp only [place, whereIs_eq]
    by_cases hpk : p = k
    · rw [hpk, Function.update_self]
    · rw [Function.update_of_ne hpk]
      exact ih p (by omega)

theorem fillGlobal_some {t : TaskMapper} {k i p : ℕ} (h : fillGlobal t k i = some p) :
    p < k ∧ t.whereIsNode p * t.maxProcsPerNode + t.whereIsLocal p = i := by
  induction k with
  | zero => cases h
  | succ k ih =>
    rw [fillGlobal, List.range_succ, List.foldl_append, List.foldl_cons, List.foldl_nil,
      ← fillGlobal] at h
    by_cases hi : i = t.whereIsNode k * t.maxProcsPerNode + t.whereIsLocal k
    · rw [hi, Function.update_self] at h
      cases h
      exact ⟨Nat.lt_succ_self _, hi.symm⟩
    · rw [Function.update_of_ne hi] at h
      have hp := ih h
      exact ⟨by omega, hp.2⟩

section Mapped

variable (h : Mapped processors nnodes)

include h

theorem onNode_eq (node : ℕ) : onNode (taskMapper processors nnodes myNode) node =
    (Finset.range processors).filter fun p => p / icd processors nnodes = node := by
  ext p
  simp only [onNode, Finset.mem_filter, Finset.mem_range, taskMapper_nprocs h]
  constructor
  · rintro ⟨hp, hnode⟩
    rw [globalToNode_eq h myNode hp] at hnode
    exact ⟨hp, hnode⟩
  · rintro ⟨hp, hnode⟩
    rw [← globalToNode_eq h myNode hp] at hnode
    exact ⟨hp, hnode⟩

theorem onNode_card (myNode node : ℕ) : (onNode (taskMapper processors nnodes myNode) node).card =
    min (icd processors nnodes) (processors - node * icd processors nnodes) := by
  rw [onNode_eq h, block_card (icd_pos h)]

theorem local_pids (node : ℕ) : let t := taskMapper processors nnodes myNode
    (onNode t node).image t.globalToLocal = Finset.range (onNode t node).card := by
  intro t
  have himage : (onNode t node).image t.globalToLocal =
      (onNode t node).image fun p => p % icd processors nnodes := by
    apply Finset.image_congr
    intro p hp
    have hmem := (Finset.mem_filter.mp (Finset.mem_coe.mp hp)).1
    rw [taskMapper_nprocs h, Finset.mem_range] at hmem
    exact globalToLocal_eq h myNode hmem
  rw [himage, onNode_card h, onNode_eq h, block_locals (icd_pos h)]

theorem onNode_total : ∑ node ∈ Finset.range nnodes,
    (onNode (taskMapper processors nnodes myNode) node).card = processors := by
  have hmaps : ∀ p ∈ Finset.range processors, p / icd processors nnodes ∈ Finset.range nnodes := by
    intro p hp
    exact Finset.mem_range.mpr (node_lt h (Finset.mem_range.mp hp))
  have hfibres := Finset.card_eq_sum_card_fiberwise hmaps
  rw [Finset.card_range] at hfibres
  refine Eq.trans (Finset.sum_congr rfl ?_) hfibres.symm
  intro node _
  rw [onNode_eq h]

theorem onNode_most : (Finset.range nnodes).sup
    (fun node => (onNode (taskMapper processors nnodes myNode) node).card) =
      (taskMapper processors nnodes myNode).procsPerNode := by
  rw [procsPerNode_eq h]
  apply le_antisymm
  · apply Finset.sup_le
    intro node _
    rw [onNode_card h]
    exact Nat.min_le_left _ _
  · -- node 0 has a whole block
    have hzero : 0 ∈ Finset.range nnodes := Finset.mem_range.mpr h.nnodes_pos
    have hle := Finset.le_sup (f := fun node =>
      (onNode (taskMapper processors nnodes myNode) node).card) hzero
    have hfull := onNode_card h myNode 0
    have hicd := icd_le h
    omega

omit h in
theorem entry_index {node lp : ℕ} (hnode : node < nnodes)
    (hlp : lp < (taskMapper processors nnodes myNode).procsPerNode) :
    (taskMapper processors nnodes myNode).procsPerNode * node + lp <
      nnodes * (taskMapper processors nnodes myNode).procsPerNode := by
  generalize (taskMapper processors nnodes myNode).procsPerNode = m at hlp ⊢
  have hle := Nat.mul_le_mul_right m (Nat.succ_le_of_lt hnode)
  rw [Nat.succ_mul, Nat.mul_comm node] at hle
  omega

theorem globalToLocal_lt_most {p : ℕ} (hp : p < processors) :
    (taskMapper processors nnodes myNode).globalToLocal p <
      (taskMapper processors nnodes myNode).procsPerNode := by
  rw [globalToLocal_eq h myNode hp, procsPerNode_eq h]
  exact Nat.mod_lt p (icd_pos h)

theorem localToGlobalPid_some {node lp p : ℕ}
    (hlp : lp < (taskMapper processors nnodes myNode).procsPerNode)
    (hentry : (taskMapper processors nnodes myNode).localToGlobalPid node lp = some p) :
    p < processors ∧ (taskMapper processors nnodes myNode).globalToNode p = node ∧
      (taskMapper processors nnodes myNode).globalToLocal p = lp := by
  have hplaced := placeAll_placed (icd_pos h) myNode processors
  obtain ⟨hpn, hindex⟩ := fillGlobal_some hentry
  have hmost : (placeAll processors nnodes myNode processors).maxProcsPerNode =
      icd processors nnodes := procsPerNode_eq h myNode
  have hread : (taskMapper processors nnodes myNode).maxProcsPerNode = icd processors nnodes :=
    hmost
  have hdm := Nat.div_add_mod' p (icd processors nnodes)
  rw [hplaced.node p hpn, hplaced.localPid p hpn, hmost, hdm, hread] at hindex
  rw [procsPerNode_eq h] at hlp
  rw [globalToNode_eq h myNode hpn, globalToLocal_eq h myNode hpn, hindex]
  refine ⟨lt_of_eq_of_lt hindex.symm hpn, ?_, ?_⟩
  · rw [Nat.mul_add_div (icd_pos h), Nat.div_eq_of_lt hlp, Nat.add_zero]
  · rw [Nat.mul_add_mod, Nat.mod_eq_of_lt hlp]

end Mapped

structure Consistent (processors nnodes myNode : ℕ) (t : TaskMapper) : Prop where
  nprocs : t.nprocs = processors
  node : ∀ p < processors, t.globalToNode p < nnodes
  injective : ∀ p < processors, ∀ q < processors, t.globalToNode p = t.globalToNode q →
    t.globalToLocal p = t.globalToLocal q → p = q
  inverse : ∀ p < processors, t.localToGlobalPid (t.globalToNode p) (t.globalToLocal p) = some p
  entries : ∀ node, ∀ lp < t.procsPerNode, ∀ p, t.localToGlobalPid node lp = some p →
    p < processors ∧ t.globalToNode p = node ∧ t.globalToLocal p = lp
  counted : ∀ node, t.procsOnNode node = (onNode t node).card
  locals : ∀ node, (onNode t node).image t.globalToLocal = Finset.range (onNode t node).card
  total : ∑ node ∈ Finset.range nnodes, (onNode t node).card = processors
  most : (Finset.range nnodes).sup (fun node => (onNode t node).card) = t.procsPerNode
  here : t.procsThisNode = (onNode t myNode).card
  localHere : ∀ p < processors, t.globalToLocalPid p =
    if t.globalToNode p = myNode then some (t.globalToLocal p) else none
  /-- the entry written for a processor by the second loop -/
  fillIndex : ∀ p < processors,
    t.globalToNode p * t.procsPerNode + t.globalToLocal p < nnodes * t.procsPerNode
  /-- the entry read by `local_to_global_pid` -/
  readIndex : ∀ node < nnodes, ∀ lp < t.procsPerNode,
    t.procsPerNode * node + lp < nnodes * t.procsPerNode
  ownIndex : ∀ lp < t.procsThisNode, t.procsPerNode * myNode + lp < nnodes * t.procsPerNode

/-- The tables are consistent for all numbers of processors and nodes and every own rank. -/
theorem tables_consistent (hp : 0 < processors) (hn : 0 < nnodes) (myNode : ℕ) :
    Consistent processors nnodes myNode (taskMapper processors nnodes myNode) := by
  have h : Mapped processors nnodes := ⟨hp, hn⟩
  have hplaced := placeAll_placed (icd_pos h) myNode processors
  have hthis : (taskMapper processors nnodes myNode).procsThisNode =
      (onNode (taskMapper processors nnodes myNode) myNode).card := by
    rw [procsThisNode_eq h, onNode_card h]
  constructor
  case nprocs => exact taskMapper_nprocs h myNode
  case node =>
    intro p hpn
    rw [globalToNode_eq h myNode hpn]
    exact node_lt h hpn
  case injective =>
    intro p hpn q hqn hnode hlocal
    rw [globalToNode_eq h myNode hpn, globalToNode_eq h myNode hqn] at hnode
    rw [globalToLocal_eq h myNode hpn, globalToLocal_eq h myNode hqn] at hlocal
    apply index_injective (m := icd processors nnodes)
    rw [hnode, hlocal]
  case inverse =>
    intro p hpn
    have hdm := Nat.div_add_mod' p (icd processors nnodes)
    rw [globalToNode_eq h myNode hpn, globalToLocal_eq h myNode hpn,
      localToGlobalPid_eq h (by omega), hdm]
  case entries =>
    intro node lp hlp p hentry
    exact localToGlobalPid_some h hlp hentry
  case counted =>
    intro node
    rw [onNode_card h]
    exact hplaced.onNode node
  case locals => exact local_pids h
  case total => exact onNode_total h
  case most => exact onNode_most h
  case here => exact hthis
  case localHere =>
    intro p hpn
    rw [globalToNode_eq h myNode hpn, globalToLocal_eq h myNode hpn]
    exact placeAll_here processors p hpn
  case fillIndex =>
    intro p hpn
    have hnode := node_lt h hpn
    rw [← globalToNode_eq h myNode hpn] at hnode
    rw [Nat.mul_comm ((taskMapper processors nnodes myNode).globalToNode p)]
    exact entry_index hnode (globalToLocal_lt_most h hpn)
  case readIndex =>
    intro node hnode lp hlp
    exact entry_index hnode hlp
  case ownIndex =>
    intro lp hlp
    rw [procsThisNode_eq h] at hlp
    have hlt : myNode * icd processors nnodes + lp < processors := by omega
    have hmul := le_icd_mul h
    rw [procsPerNode_eq h, Nat.mul_comm (icd processors nnodes)]
    omega

theorem tables_consistent_five : Consistent 5 4 3 (taskMapper 5 4 3) :=
  tables_consistent (by decide) (by decide) 3

def Balanced (nnodes : ℕ) (t : TaskMapper) : Prop :=
  (∀ a < nnodes, ∀ b < nnodes, (onNode t a).card ≤ (onNode t b).card + 1) ∧
    (nnodes ≤ t.nprocs → ∀ a < nnodes, (onNode t a).Nonempty)

theorem onNode_none (node : ℕ) : onNode (taskMapper 0 nnodes myNode) node = ∅ := rfl

section Sizes

variable (h : Mapped processors nnodes)

include h

theorem onNode_short (myNode : ℕ) (hlast : nnodes * icd processors nnodes ≤ processors + 1)
    {node : ℕ} (hnode : node < nnodes) : icd processors nnodes ≤
      (onNode (taskMapper processors nnodes myNode) node).card + 1 := by
  have hle := Nat.mul_le_mul_right (icd processors nnodes) (Nat.succ_le_of_lt hnode)
  rw [Nat.succ_mul] at hle
  rw [onNode_card h]
  omega

theorem onNode_le (myNode node : ℕ) : (onNode (taskMapper processors nnodes myNode) node).card ≤
    icd processors nnodes := by
  rw [onNode_card h]
  exact Nat.min_le_left _ _

theorem short_iff : nnodes * icd processors nnodes ≤ processors + 1 ↔
    processors % nnodes = 0 ∨ processors % nnodes = nnodes - 1 := by
  have hp := h.processors_pos
  have hn := h.nnodes_pos
  have hdm := Nat.div_add_mod processors nnodes
  have hmod := Nat.mod_lt processors hn
  have hicd : icd processors nnodes =
      processors / nnodes + (if processors % nnodes = 0 then 0 else 1) := by
    rw [icd, Nat.div_eq_iff hn]
    have hmul : (processors / nnodes + 1) * nnodes = nnodes * (processors / nnodes) + nnodes := by
      rw [Nat.succ_mul, Nat.mul_comm]
    have hcomm := Nat.mul_comm (processors / nnodes) nnodes
    split
    · rw [Nat.add_zero]
      omega
    · omega
  rw [hicd]
  split
  · rw [Nat.add_zero]
    omega
  · rw [Nat.mul_succ]
    omega

theorem balanced_of_short (hlast : nnodes * icd processors nnodes ≤ processors + 1) :
    Balanced nnodes (taskMapper processors nnodes myNode) := by
  constructor
  · intro a _ b hb
    exact (onNode_le h myNode a).trans (onNode_short h myNode hlast hb)
  · intro hle a ha
    rw [taskMapper_nprocs h] at hle
    rw [← Finset.card_pos]
    have hshort := onNode_short h myNode hlast ha
    rcases Nat.lt_or_ge 1 (icd processors nnodes) with htwo | hone
    · omega
    · have hpos := icd_pos h
      have heq : icd processors nnodes = 1 := by omega
      rw [onNode_card h, heq]
      omega

theorem balanced_of_single (hle : processors ≤ nnodes) :
    Balanced nnodes (taskMapper processors nnodes myNode) := by
  have hpos := h.processors_pos
  have hone : icd processors nnodes = 1 := by
    rw [icd, Nat.div_eq_iff h.nnodes_pos]
    omega
  constructor
  · intro a _ b _
    have := onNode_le h myNode a
    omega
  · intro hge a ha
    rw [taskMapper_nprocs h] at hge
    rw [← Finset.card_pos, onNode_card h, hone]
    omega

theorem short_of_balanced (hlt : nnodes < processors)
    (hb : Balanced nnodes (taskMapper processors nnodes myNode)) :
    nnodes * icd processors nnodes ≤ processors + 1 := by
  have hn := h.nnodes_pos
  have htwo : 2 ≤ icd processors nnodes := by
    rw [icd, Nat.le_div_iff_mul_le hn]
    omega
  have hle := icd_le h
  have hends := hb.1 0 hn (nnodes - 1) (by omega)
  rw [onNode_card h, onNode_card h] at hends
  have hmul := Nat.succ_mul (nnodes - 1) (icd processors nnodes)
  rw [Nat.succ_eq_add_one, Nat.sub_add_cancel hn] at hmul
  omega

end Sizes

/-- The blocks are balanced exactly when they are single processors, or when at most one
processor is missing for all of them to be whole. -/
theorem balanced_iff (hn : 0 < nnodes) (processors myNode : ℕ) :
    Balanced nnodes (taskMapper processors nnodes myNode) ↔
      processors ≤ nnodes ∨ processors % nnodes = 0 ∨ processors % nnodes = nnodes - 1 := by
  rcases Nat.eq_zero_or_pos processors with rfl | hp
  · refine ⟨fun _ => .inl hn.le, fun _ => ⟨fun a _ b _ => ?_, fun hle => ?_⟩⟩
    · rw [onNode_none, Finset.card_empty]
      exact Nat.zero_le _
    · have hzero : nnodes ≤ 0 := hle
      omega
  have h : Mapped processors nnodes := ⟨hp, hn⟩
  have hdm := Nat.div_add_mod processors nnodes
  have hmod := Nat.mod_lt processors hn
  rcases Nat.lt_or_ge nnodes processors with hlt | hle
  · have hlast : nnodes * icd processors nnodes ≤ processors + 1 ↔
        processors % nnodes = 0 ∨ processors % nnodes = nnodes - 1 := short_iff h
    constructor
    · intro hb
      exact .inr (hlast.mp (short_of_balanced h hlt hb))
    · rintro (hle | hr)
      · omega
      · exact balanced_of_short h (hlast.mpr hr)
  · exact ⟨fun _ => .inl hle, fun _ => balanced_of_single h hle⟩

theorem balanced_iff_eleven : Balanced 4 (taskMapper 11 4 0) ↔
    11 ≤ 4 ∨ 11 % 4 = 0 ∨ 11 % 4 = 4 - 1 := balanced_iff (by decide) 11 0

/-- Five processors on four nodes: the last node has none. -/
theorem five_on_four : ¬ ∀ processors nnodes myNode, 0 < nnodes →
    Balanced nnodes (taskMapper processors nnodes myNode) := by
  intro hall
  have hfour := (hall 5 4 0 (by decide)).2 (by decide) 3 (by decide)
  have hnone : onNode (taskMapper 5 4 0) 3 = ∅ := by decide
  rw [hnone] at hfour
  exact Finset.not_nonempty_empty hfour

end Tables

end BspOnMpi.MapperTables
