import BspOnMpi.SharedVariableSet

/-! Initialisation of shared variables. A node takes the values of the master in the order of
their names, up to the first name that it does not know. -/

namespace BspOnMpi.SharedInitialize
open Lib Slots SerializedDataset SharedVariableSet

variable {S : Name → VarType}

theorem mem_takeWhile {p : Name → Bool} {names : List Name} (hnames : names.Pairwise (· < ·))
    {id : Name} : id ∈ names.takeWhile p ↔
      id ∈ names ∧ p id ∧ ∀ id' ∈ names, id' < id → p id' := by
  induction names with
  | nil => simp
  | cons x names ih =>
    obtain ⟨hx, hrest⟩ := List.pairwise_cons.mp hnames
    by_cases hpx : p x
    · rw [List.takeWhile_cons_of_pos hpx, List.mem_cons, ih hrest, List.mem_cons]
      constructor
      · rintro (rfl | ⟨hmem, hp, hbefore⟩)
        · refine ⟨.inl rfl, hpx, fun id' hid' hlt => ?_⟩
          rcases List.mem_cons.mp hid' with rfl | hid'
          · exact hpx
          · exact absurd hlt (List.lt_asymm (hx id' hid'))
        · refine ⟨.inr hmem, hp, fun id' hid' hlt => ?_⟩
          rcases List.mem_cons.mp hid' with rfl | hid'
          · exact hpx
          · exact hbefore id' hid' hlt
      · rintro ⟨rfl | hmem, hp, hbefore⟩
        · exact .inl rfl
        · exact .inr ⟨hmem, hp, fun id' hid' => hbefore id' (List.mem_cons_of_mem _ hid')⟩
    · rw [List.takeWhile_cons_of_neg hpx]
      apply iff_of_false List.not_mem_nil
      rintro ⟨hmem, hp, hbefore⟩
      rcases List.mem_cons.mp hmem with rfl | hmem
      · exact hpx hp
      · exact hpx (hbefore x List.mem_cons_self (hx id hmem))

theorem withValues_nil (s : VariableSet S) (v : ∀ id, (S id).Value) : withValues s [] v = s := by
  simp [withValues]

theorem withValues_cons (s : VariableSet S) (id : Name) (ids : List Name) (v : ∀ id, (S id).Value) :
    withValues (withValues s [id] v) ids v = withValues s (id :: ids) v := by
  simp only [withValues]
  congr 1
  funext x
  by_cases hx : x ∈ ids
  · simp [hx]
  · simp [hx]

section Expand

variable {ids : List Name} {v : ∀ id, (S id).Value} {n k : ℕ} {s : VariableSet S} {ds : Dataset}
  (hds : At ds n (recordsOf ids v) k) (hk : k < ids.length)

include hds hk

theorem expandElem_known (hid : ids[k] ∈ s.svl) :
    expandElem (s, ds) = (withValues s [ids[k]] v, (getElem ds).2) := by
  have hname := nextName_record hds hk
  obtain ⟨hvalue, -⟩ := getElem_record hds hk
  generalize ids[k] = id at *
  subst hname
  simp only [expandElem, if_pos hid, hvalue, VarType.roundtrip, withValues]
  congr 2
  funext x
  by_cases hx : x = nextName ds
  · subst hx
    simp
  · simp [hx]

theorem expandElem_unknown (hid : ids[k] ∉ s.svl) : expandElem (s, ds) = (s, ds) := by
  rw [← nextName_record hds hk] at hid
  exact if_neg hid

theorem expandElems_unknown (hid : ids[k] ∉ s.svl) (m : ℕ) : expandElems m (s, ds) = (s, ds) := by
  induction m with
  | zero => rfl
  | succ m ih => rw [expandElems, expandElem_unknown hds hk hid, ih]

end Expand

theorem expandElems_spec {ids : List Name} {v : ∀ id, (S id).Value} {n k : ℕ} {s : VariableSet S}
    {ds : Dataset} (hds : At ds n (recordsOf ids v) k) :
    (expandElems (ids.length - k) (s, ds)).1 =
      withValues s ((ids.drop k).takeWhile (· ∈ s.svl)) v := by
  induction hm : ids.length - k generalizing s ds k with
  | zero =>
    rw [List.drop_of_length_le (by omega), List.takeWhile_nil, withValues_nil]
    rfl
  | succ m ih =>
    have hk : k < ids.length := by omega
    rw [List.drop_eq_getElem_cons hk]
    by_cases hid : ids[k] ∈ s.svl
    · obtain ⟨-, hnext⟩ := getElem_record hds hk
      rw [expandElems, expandElem_known hds hk hid, ih hnext (by omega),
        List.takeWhile_cons_of_pos (by simpa using hid)]
      exact withValues_cons s ids[k] _ v
    · rw [expandElems_unknown hds hk hid, List.takeWhile_cons_of_neg (by simpa using hid),
        withValues_nil]

theorem foldl_addElem (ids : List Name) (v : ∀ id, (S id).Value) (ds : Dataset) :
    ids.foldl (fun ds id => addElem ds id ((S id).serialize (v id))) ds =
      fill ds (recordsOf ids v) := by
  induction ids generalizing ds with
  | nil => rfl
  | cons id ids ih => exact ih _

def withChildren (s : VariableSet S) (ids : List Name) : VariableSet S :=
  { s with vars := fun id => if id ∈ ids then (s.vars id).map (fun _ => s.value id) else s.vars id }

theorem foldl_initializeVar {ids : List Name} (hids : ids.Nodup) (s : VariableSet S) :
    ids.foldl initializeVar s = withChildren s ids := by
  induction ids generalizing s with
  | nil => simp [withChildren]
  | cons id ids ih =>
    obtain ⟨hnot, hrest⟩ := List.nodup_cons.mp hids
    rw [List.foldl_cons, ih hrest]
    simp only [withChildren, initializeVar]
    congr 1
    funext x
    by_cases he : x = id
    · subst he
      simp [hnot]
    · simp [he]

section Nodes

variable {n master : ℕ} (env : Environment S) (w : ℕ → VariableSet S) (q : ℕ)

def taken (n master : ℕ) (w : ℕ → VariableSet S) (q : ℕ) : List Name :=
  if 1 < n ∧ q ≠ master then (w master).initializeList.names.takeWhile (· ∈ (w q).svl) else []

def received (env : Environment S) (master : ℕ) (w : ℕ → VariableSet S) (q : ℕ) : Dataset :=
  restart (broadcast (fun p => initialDataset (env.dataset p) master p (w p)) master q)

theorem received_at : At (received env master w q) (w master).initializeList.names.length
      (recordsOf (w master).initializeList.names (w master).value) 0 ∧
    elements (received env master w q) = (w master).initializeList.names.length := by
  have hfilled : Filled (initialDataset (env.dataset master) master master (w master))
      (w master).initializeList.names.length
      (recordsOf (w master).initializeList.names (w master).value) := by
    rw [initialDataset, if_pos rfl, foldl_addElem]
    exact fill_filled (create_filled _ _) (by simp [recordsOf])
  obtain ⟨hencoded, hnelem⟩ := broadcast_encoded (q := q)
    (w := fun p => initialDataset (env.dataset p) master p (w p)) hfilled (by simp [recordsOf])
  exact ⟨restart_at hencoded, hnelem⟩

theorem initializeAll_eq : initializeAll n master env w q =
    withChildren (withValues (w q) (taken n master w q) (w master).value)
      (w q).initializeList.names := by
  rw [initializeAll, foldl_initializeVar (w q).initializeList.nodup, Int.toNat_natCast]
  congr 1
  by_cases hn : 1 < n
  · rw [if_pos ⟨hn, Int.natCast_nonneg master⟩]
    by_cases hq : q = master
    · simp [taken, hq, withValues_nil]
    · obtain ⟨hat, helements⟩ : At (received env master w q) _ _ 0 ∧ _ := received_at env w q
      have hspec := expandElems_spec (s := w q) hat
      rw [Nat.sub_zero, List.drop_zero, ← helements] at hspec
      rw [if_pos (by exact_mod_cast hq), taken, if_pos ⟨hn, hq⟩]
      exact hspec
  · rw [if_neg fun h => hn h.1, taken, if_neg fun h => hn h.1, withValues_nil]

theorem mem_taken {id : Name} (hq : q < n) (hm : master < n) (hne : q ≠ master) :
    id ∈ taken n master w q ↔ id ∈ (w master).initializeList ∧ id ∈ (w q).svl ∧
      ∀ id' ∈ (w master).initializeList, id' < id → id' ∈ (w q).svl := by
  rw [taken, if_pos ⟨by omega, hne⟩, mem_takeWhile (w master).initializeList.sorted]
  simp [mem_names]

end Nodes

/-- What `initialize_all` should make of a node: `old` before, `new` after. -/
structure Initialized (master old new : VariableSet S) : Prop where
  common : ∀ id ∈ master.initializeList, id ∈ old.svl → new.value id = master.value id
  children : ∀ id ∈ old.initializeList, new.vars id = (old.vars id).map fun _ => new.value id
  otherValues : ∀ id, ¬ (id ∈ master.initializeList ∧ id ∈ old.svl) → new.value id = old.value id
  otherChildren : ∀ id, id ∉ old.initializeList → new.vars id = old.vars id
  rest : new = { old with value := new.value, vars := new.vars }

/-- A common variable is only reached when the node knows all of the master's names before
it; otherwise it has to have the value already. -/
theorem initialized_iff {n master : ℕ} (env : Environment S) (w : ℕ → VariableSet S)
    (hm : master < n) :
    (∀ q < n, Initialized (w master) (w q) (initializeAll n master env w q)) ↔
      ∀ q < n, ∀ id ∈ (w master).initializeList, id ∈ (w q).svl →
        (∃ id' ∈ (w master).initializeList, id' < id ∧ id' ∉ (w q).svl) →
          (w q).value id = (w master).value id := by
  apply forall₂_congr
  intro q hq
  rw [initializeAll_eq]
  by_cases hqm : q = master
  · subst hqm
    have hnone : taken n q w q = [] := if_neg fun h => h.2 rfl
    rw [hnone, withValues_nil]
    refine iff_of_true ?_ fun _ _ _ _ => rfl
    exact ⟨fun _ _ _ => rfl, fun id hid => if_pos hid, fun _ _ => rfl, fun id hid => if_neg hid,
      rfl⟩
  · have htaken : ∀ id, (withValues (w q) (taken n master w q) (w master).value).value id =
        if id ∈ taken n master w q then (w master).value id else (w q).value id := fun _ => rfl
    constructor
    · rintro h id hid hknown ⟨id', hid', hlt, hunknown⟩
      have hnot : id ∉ taken n master w q := by
        rw [mem_taken w q hq hm hqm]
        rintro ⟨-, -, hbefore⟩
        exact hunknown (hbefore id' hid' hlt)
      rw [← h.common id hid hknown]
      exact (if_neg hnot).symm
    · intro h
      refine ⟨fun id hid hknown => ?_, fun id hid => if_pos hid, fun id hother => ?_,
        fun id hid => if_neg hid, rfl⟩
      · apply (htaken id).trans
        by_cases hmem : id ∈ taken n master w q
        · exact if_pos hmem
        · rw [if_neg hmem]
          apply h id hid hknown
          by_contra hall
          refine hmem ((mem_taken w q hq hm hqm).mpr ⟨hid, hknown, fun id' hid' hlt => ?_⟩)
          by_contra hunknown
          exact hall ⟨id', hid', hlt, hunknown⟩
      · refine (htaken id).trans (if_neg ?_)
        rw [mem_taken w q hq hm hqm]
        exact fun hmem => hother ⟨hmem.1, hmem.2.1⟩

def byteVar : VarType where
  Value := UInt8
  op l _ := l
  makeNeutral v := v
  serialize v := [v]
  deserialize bytes old := bytes.headD old
  roundtrip := byte_roundtrip

def byteEnvironment : Environment fun _ => byteVar where
  dataset _ _ _ := .words 0 0
  target _ _ := .words 0 0
  unset _ := 0
  here _ _ := ⟨(0 : UInt8), fun _ h => .chunk h⟩
  everywhere _ _ := ⟨(0 : UInt8), fun _ h => .chunk h⟩

def byteNode (known : NameSet) (value : UInt8) : VariableSet fun _ => byteVar where
  svl := known
  value _ := value
  vars _ := []
  initializeList := known
  reduceList := .empty
  initialize_sub _ h := h
  reduce_sub _ h := absurd h List.not_mem_nil
  reduceSvl := .empty
  slot _ _ := (0 : UInt8)

def bothNames : NameSet := ⟨[[97], [98]], by decide⟩

def secondName : NameSet := .single [98]

theorem initialized_iff_bytes :
    let w := fun q => byteNode bothNames (if q = 0 then 1 else 2)
    ∀ q < 2, (initializeAll 2 0 byteEnvironment w q).value [98] = (1 : UInt8) := by
  intro w q hq
  have hall : ∀ q < 2, Initialized (w 0) (w q) (initializeAll 2 (0 : ℕ) byteEnvironment w q) := by
    apply (initialized_iff byteEnvironment w (by decide)).mpr
    rintro q - id - - ⟨id', hid', -, hunknown⟩
    exact absurd hid' hunknown
  have hmem : [98] ∈ bothNames := by decide
  exact (hall q hq).common [98] hmem hmem

/-- Node 1 does not know the first of the master's names and misses the second. -/
theorem initialize_misses :
    let w := fun q => if q = 0 then byteNode bothNames 1 else byteNode secondName 2
    [98] ∈ (w 0).initializeList ∧ [98] ∈ (w 1).svl ∧ (w 0).value [98] = (1 : UInt8) ∧
      (initializeAll 2 0 byteEnvironment w 1).value [98] = (2 : UInt8) := by
  intro w
  refine ⟨by decide, by decide, rfl, ?_⟩
  rw [← Nat.cast_zero, initializeAll_eq]
  rfl

end BspOnMpi.SharedInitialize
