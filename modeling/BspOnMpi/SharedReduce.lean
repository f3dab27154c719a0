import BspOnMpi.SharedVariableSet

/-! Reduction of shared variables. What `reduce_all` leaves in the variables of a node, first for
any operation and then for associative ones with a neutral element. -/

namespace BspOnMpi.SharedReduce
open Lib Slots SerializedDataset SharedVariableSet

variable {S : Name → VarType}

theorem foldl_reduceLocal (busy : Bool) (schedule : ∀ id, Schedule (S id).Value) {ids : List Name}
    (hids : ids.Nodup) (s : VariableSet S) (ds : Dataset) :
    ids.foldl (reduceLocal busy schedule) (s, ds) =
      (withValues s ids (localValue busy schedule s),
        fill ds (recordsOf ids (localValue busy schedule s))) := by
  induction ids generalizing s ds with
  | nil => simp [withValues, recordsOf, fill]
  | cons id ids ih =>
    obtain ⟨hnot, hrest⟩ := List.nodup_cons.mp hids
    let s' : VariableSet S :=
      { s with value := Function.update s.value id (localValue busy schedule s id) }
    have hlocal : ∀ x ∈ ids, localValue busy schedule s' x = localValue busy schedule s x := by
      intro x hx
      have hne : x ≠ id := by
        rintro rfl
        exact hnot hx
      simp only [localValue, s', Function.update_of_ne hne]
    have hvalues : withValues s' ids (localValue busy schedule s') =
        withValues s (id :: ids) (localValue busy schedule s) := by
      simp only [withValues, s']
      congr 1
      funext x
      by_cases hx : x ∈ ids
      · rw [if_pos hx, if_pos (List.mem_cons_of_mem _ hx)]
        exact hlocal x hx
      · by_cases he : x = id
        · subst he
          simp [hx]
        · simp [hx, he]
    have hrecords : recordsOf ids (localValue busy schedule s') =
        recordsOf ids (localValue busy schedule s) :=
      List.map_congr_left fun x hx => by rw [hlocal x hx]
    rw [List.foldl_cons]
    show ids.foldl _ (s', addElem ds id ((S id).serialize (localValue busy schedule s id))) = _
    rw [ih hrest, hvalues, hrecords]
    rfl

theorem reduceHere_eq (busy : Bool) (schedule : ∀ id, Schedule (S id).Value) (fresh : ℕ → ℕ → Slot)
    (s : VariableSet S) : let v := localValue busy schedule s
    (reduceHere busy schedule fresh s).1 = withValues s s.reduceList.names v ∧
      Filled (reduceHere busy schedule fresh s).2 s.reduceList.names.length
        (recordsOf s.reduceList.names v) := by
  intro v
  have hfold := foldl_reduceLocal busy schedule s.reduceList.nodup s
    (create fresh s.reduceList.names.length)
  have hfill : Filled
    (fill (create fresh s.reduceList.names.length) (recordsOf s.reduceList.names v))
      s.reduceList.names.length ([] ++ recordsOf s.reduceList.names v) :=
    fill_filled (create_filled fresh s.reduceList.names.length) (by simp [recordsOf])
  rw [reduceHere, hfold]
  exact ⟨rfl, hfill⟩

section Gather

variable {sds : ℕ → Dataset} {n p : ℕ}

theorem offset_succ (sizes : ℕ → ℕ) (p : ℕ) : offset sizes (p + 1) = offset sizes p + sizes p := by
  simp [offset, List.range_succ]

theorem offset_words (p : ℕ) : offset (fun p => size (sds p)) p / 8 =
    offset (fun p => (sds p).data.size) p := by
  have hmul : offset (fun p => size (sds p)) p = offset (fun p => (sds p).data.size) p * 8 := by
    induction p with
    | zero => rfl
    | succ p ih =>
      rw [offset_succ, offset_succ, ih, Nat.add_mul]
      rfl
  rw [hmul, Nat.mul_div_cancel _ (by decide)]

theorem offset_mono (sizes : ℕ → ℕ) : Monotone (offset sizes) :=
  monotone_nat_of_le_succ fun p => by
    rw [offset_succ]
    omega

theorem allgatherv_block (target : ℕ → Slot) (hp : p < n) {k : ℕ} (hk : k < (sds p).data.size) :
    allgatherv n sds target (offset (fun p => size (sds p)) p / 8 + k) = (sds p).data.data k := by
  have hsize : ∀ p, size (sds p) / 8 = (sds p).data.size := fun p =>
    Nat.mul_div_cancel _ (by decide)
  induction n with
  | zero => omega
  | succ n ih =>
    have hsucc : allgatherv (n + 1) sds target = store (allgatherv n sds target)
        (offset (fun p => size (sds p)) n / 8) (load (getData (sds n)) 0 (size (sds n) / 8)) := by
      simp [allgatherv, List.range_succ]
    rw [hsucc, offset_words, offset_words, hsize]
    rcases Nat.lt_or_eq_of_le (Nat.le_of_lt_succ hp) with hlt | rfl
    · have hle := offset_mono (fun p => (sds p).data.size) (Nat.succ_le_of_lt hlt)
      rw [Nat.succ_eq_add_one, offset_succ] at hle
      rw [store_of_lt _ _ (by omega), ← offset_words]
      exact ih hlt
    · rw [store_add _ _ (by simpa using hk), load_getElem, Nat.zero_add]
      rfl

theorem otherDataset_at (target : ℕ → Slot) (unset : ℕ) (hp : p < n) {es : List Element}
    (h : Filled (sds p) es.length es) :
    At (otherDataset n sds target unset p) es.length es 0 ∧
      elements (otherDataset n sds target unset p) = es.length := by
  have hnelem : elements (sds p) = es.length := h.nelem
  refine ⟨restart_at ?_, hnelem⟩
  refine h.encoded.congr (fun k hk => getU64_congr ?_) fun k _ hk => ?_
  · have hhead := h.header
    exact allgatherv_block target hp (by omega)
  · rw [← h.dataPos] at hk
    exact allgatherv_block target hp (hk.trans_le h.dataPos_le)

end Gather

def withSlots (s : VariableSet S) (p : ℕ) (ids : List Name) (v : ∀ id, (S id).Value) :
    VariableSet S :=
  { s with slot := fun id j => if id ∈ ids ∧ j = p + 1 then v id else s.slot id j }

theorem withSlots_nil (s : VariableSet S) (p : ℕ) (v : ∀ id, (S id).Value) :
    withSlots s p [] v = s := by
  simp [withSlots]

theorem withSlots_cons (s : VariableSet S) (p : ℕ) (id : Name) (ids : List Name)
    (v : ∀ id, (S id).Value) :
    withSlots (withSlots s p [id] v) p ids v = withSlots s p (id :: ids) v := by
  simp only [withSlots]
  congr 1
  funext x j
  by_cases hj : j = p + 1
  · by_cases hx : x ∈ ids
    · simp [hj, hx]
    · simp [hj, hx]
  · simp [hj]

theorem receiveElem_at {p : ℕ} {v : ∀ id, (S id).Value} {n k : ℕ} {s : VariableSet S}
    {ds : Dataset} {ids : List Name} (hds : At ds n (recordsOf ids v) k) (hk : k < ids.length)
    (hid : ids[k] ∈ s.reduceSvl) :
    receiveElem p (s, ds) = (withSlots s p [ids[k]] v, (getElem ds).2) := by
  have hname := nextName_record hds hk
  obtain ⟨hvalue, -⟩ := getElem_record hds hk
  generalize ids[k] = id at *
  subst hname
  simp only [receiveElem, if_pos hid, hvalue, VarType.roundtrip, withSlots]
  congr 2
  funext x j
  by_cases hx : x = nextName ds
  · subst hx
    by_cases hj : j = p + 1
    · simp [hj]
    · simp [hj]
  · simp [hx]

theorem receiveElems_spec {p : ℕ} {ids : List Name} {v : ∀ id, (S id).Value} {n k : ℕ}
    {s : VariableSet S} {ds : Dataset} (hds : At ds n (recordsOf ids v) k)
    (hids : ∀ id ∈ ids, id ∈ s.reduceSvl) :
    (receiveElems p (ids.length - k) (s, ds)).1 = withSlots s p (ids.drop k) v := by
  induction hm : ids.length - k generalizing s ds k with
  | zero =>
    rw [List.drop_of_length_le (by omega), withSlots_nil]
    rfl
  | succ m ih =>
    have hk : k < ids.length := by omega
    obtain ⟨-, hnext⟩ := getElem_record hds hk
    rw [receiveElems, receiveElem_at hds hk (hids _ (List.getElem_mem hk)),
      ih (s := withSlots s p [ids[k]] v) hnext hids (by omega), List.drop_eq_getElem_cons hk]
    exact withSlots_cons s p ids[k] _ v

theorem receiveAll_spec {n q : ℕ} {other : ℕ → Dataset} {ids : List Name}
    {v : ℕ → ∀ id, (S id).Value} {s : VariableSet S} (hids : ∀ id ∈ ids, id ∈ s.reduceSvl)
    (hother : ∀ p < n, At (other p) ids.length (recordsOf ids (v p)) 0 ∧
      elements (other p) = ids.length) :
    ∃ slot, receiveAll n q other s = { s with slot := slot } ∧ ∀ id ∈ ids,
      slot id 0 = s.slot id 0 ∧ ∀ p < n, p ≠ q → slot id (p + 1) = v p id := by
  induction n with
  | zero => exact ⟨s.slot, rfl, fun id _ => ⟨rfl, fun p hp => absurd hp (Nat.not_lt_zero p)⟩⟩
  | succ n ih =>
    obtain ⟨slot, heq, hslot⟩ := ih fun p hp => hother p (by omega)
    have hsucc : receiveAll (n + 1) q other s = if n = q then receiveAll n q other s
        else (receiveElems n (elements (other n)) (receiveAll n q other s, other n)).1 := by
      simp [receiveAll, List.range_succ]
    by_cases hn : n = q
    · rw [hsucc, if_pos hn]
      refine ⟨slot, heq, fun id hid => ⟨(hslot id hid).1, fun p hp hpq => ?_⟩⟩
      exact (hslot id hid).2 p (by omega) hpq
    · obtain ⟨hat, helements⟩ := hother n (by omega)
      have hspec := receiveElems_spec (p := n) (s := { s with slot := slot }) hat hids
      rw [Nat.sub_zero, List.drop_zero] at hspec
      rw [hsucc, if_neg hn, helements, heq, hspec]
      refine ⟨_, rfl, fun id hid => ⟨?_, fun p hp hpq => ?_⟩⟩
      · simpa using (hslot id hid).1
      · by_cases hpn : p = n
        · simp [hpn, hid]
        · simpa [hpn] using (hslot id hid).2 p (by omega) hpq

theorem foldl_reduceSlot (n q : ℕ) (schedule : ∀ id, Schedule (S id).Value) {ids : List Name}
    (hids : ids.Nodup) (s : VariableSet S) :
    ∃ slot, ids.foldl (reduceSlot n q schedule) s = { withValues s ids fun id =>
      reduce (S id) (nodeValues n q s id) (schedule id) (s.slot id 0) with slot := slot } := by
  induction ids generalizing s with
  | nil => exact ⟨s.slot, by simp [withValues]⟩
  | cons id ids ih =>
    obtain ⟨hnot, hrest⟩ := List.nodup_cons.mp hids
    obtain ⟨slot, heq⟩ := ih hrest (reduceSlot n q schedule s id)
    refine ⟨slot, ?_⟩
    rw [List.foldl_cons, heq]
    simp only [withValues, reduceSlot]
    congr 1
    funext x
    by_cases hx : x ∈ ids
    · have hne : x ≠ id := by
        rintro rfl
        exact hnot hx
      rw [if_pos hx, if_pos (List.mem_cons_of_mem _ hx)]
      simp only [nodeValues, Function.update_of_ne hne]
    · by_cases he : x = id
      · subst he
        simp [hx]
      · simp [hx, he]

/-- Which lists and slots `reduce_all` relies on. A single node needs no slots. -/
structure Consistent (n : ℕ) (w : ℕ → VariableSet S) : Prop where
  lists : ∀ p < n, ∀ q < n, (w p).reduceList = (w q).reduceList
  slots : 1 < n → ∀ p < n, ∀ id ∈ (w p).reduceList, id ∈ (w p).reduceSvl

def contribution (mapper : Option (ℕ → ℕ)) (env : Environment S) (w : ℕ → VariableSet S) (id : Name)
    (p : ℕ) : (S id).Value :=
  localValue (busyAt mapper p) (env.here p) (w p) id

def outcome (n : ℕ) (mapper : Option (ℕ → ℕ)) (env : Environment S) (w : ℕ → VariableSet S) (q : ℕ)
    (id : Name) : (S id).Value :=
  if 1 < n then
    reduce (S id) ((List.range n).map (contribution mapper env w id)) (env.everywhere q id)
      ((w q).slot id 0)
  else contribution mapper env w id q

section Nodes

variable {n q : ℕ} (mapper : Option (ℕ → ℕ)) (env : Environment S) {w : ℕ → VariableSet S}

theorem exchange_eq (hw : Consistent n w) (hq : q < n) (hn : 1 < n) :
    let here := fun p => reduceHere (busyAt mapper p) (env.here p) (env.dataset p) (w p)
    ∃ slot, receiveAll n q (otherDataset n (fun p => (here p).2) (env.target q) (env.unset q))
        (here q).1 = { withValues (w q) (w q).reduceList.names
          (localValue (busyAt mapper q) (env.here q) (w q)) with slot := slot } ∧
      ∀ id ∈ (w q).reduceList, slot id 0 = (w q).slot id 0 ∧
        ∀ p < n, p ≠ q → slot id (p + 1) = contribution mapper env w id p := by
  intro here
  have hhere := fun p => reduceHere_eq (busyAt mapper p) (env.here p) (env.dataset p) (w p)
  have hother : ∀ p < n,
      At (otherDataset n (fun p => (here p).2) (env.target q) (env.unset q) p)
          (w q).reduceList.names.length (recordsOf (w q).reduceList.names fun id =>
            contribution mapper env w id p) 0 ∧
        elements (otherDataset n (fun p => (here p).2) (env.target q) (env.unset q) p) =
          (w q).reduceList.names.length := by
    intro p hp
    have hfilled := (hhere p).2
    rw [hw.lists p hp q hq] at hfilled
    have hlen : (w q).reduceList.names.length = (recordsOf (w q).reduceList.names
        (localValue (busyAt mapper p) (env.here p) (w p))).length := by simp [recordsOf]
    rw [hlen] at hfilled ⊢
    exact otherDataset_at (env.target q) (env.unset q) hp hfilled
  have hslots : ∀ id ∈ (w q).reduceList.names, id ∈ (here q).1.reduceSvl := by
    intro id hid
    rw [(hhere q).1]
    exact hw.slots hn q hq id hid
  obtain ⟨slot, hreceive, hslot⟩ := receiveAll_spec (q := q) hslots hother
  refine ⟨slot, ?_, fun id hid => ⟨?_, (hslot id hid).2⟩⟩
  · rw [hreceive, (hhere q).1]
  · rw [(hslot id hid).1, (hhere q).1]
    rfl

theorem reduceAll_eq (hw : Consistent n w) (hq : q < n) :
    ∃ slot, reduceAll n mapper env w q =
      { withValues (w q) (w q).reduceList.names (outcome n mapper env w q) with slot := slot } := by
  by_cases hn : 1 < n
  · obtain ⟨slot, hexchange, hslot⟩ := exchange_eq mapper env hw hq hn
    obtain ⟨slot', hfold⟩ := foldl_reduceSlot n q (env.everywhere q) (w q).reduceList.nodup
      { withValues (w q) (w q).reduceList.names (localValue (busyAt mapper q) (env.here q) (w q))
        with slot := slot }
    refine ⟨slot', ?_⟩
    simp only [reduceAll, if_pos hn, hexchange, hfold]
    simp only [withValues]
    congr 1
    funext id
    by_cases hid : id ∈ (w q).reduceList.names
    · have hvalues : ((List.range n).map fun p => if p = q then
          localValue (busyAt mapper q) (env.here q) (w q) id else slot id (p + 1)) =
          (List.range n).map (contribution mapper env w id) := by
        apply List.map_congr_left
        intro p hp
        by_cases hpq : p = q
        · subst hpq
          rw [if_pos rfl, contribution]
        · rw [if_neg hpq]
          exact (hslot id hid).2 p (List.mem_range.mp hp) hpq
      simp only [if_pos hid, nodeValues, hvalues, (hslot id hid).1, outcome, if_pos hn]
    · simp only [if_neg hid]
  · have houtcome : outcome n mapper env w q = localValue (busyAt mapper q) (env.here q) (w q) := by
      funext id
      rw [outcome, if_neg hn, contribution]
    refine ⟨(w q).slot, ?_⟩
    rw [houtcome, reduceAll, if_neg hn, (reduceHere_eq _ _ _ _).1]
    rfl

theorem reduceAll_value (hw : Consistent n w) (hq : q < n) {id : Name}
    (hid : id ∈ (w q).reduceList) :
    (reduceAll n mapper env w q).value id = outcome n mapper env w q id := by
  obtain ⟨slot, heq⟩ := reduceAll_eq mapper env hw hq
  rw [heq]
  exact if_pos hid

theorem reduceAll_vars (hw : Consistent n w) (hq : q < n) :
    (reduceAll n mapper env w q).vars = (w q).vars := by
  obtain ⟨slot, heq⟩ := reduceAll_eq mapper env hw hq
  rw [heq]
  rfl

theorem reduceAll_consistent (hw : Consistent n w) : Consistent n (reduceAll n mapper env w) where
  lists := by
    intro p hp q hq
    obtain ⟨slot, heq⟩ := reduceAll_eq mapper env hw hp
    obtain ⟨slot', heq'⟩ := reduceAll_eq mapper env hw hq
    rw [heq, heq']
    exact hw.lists p hp q hq
  slots := by
    intro hn p hp
    obtain ⟨slot, heq⟩ := reduceAll_eq mapper env hw hp
    rw [heq]
    exact hw.slots hn p hp

end Nodes

section Fold

def Placed (mapper : Option (ℕ → ℕ)) (w : ℕ → VariableSet S) (id : Name) (p : ℕ) : Prop :=
  busyAt mapper p = true ↔ (w p).vars id ≠ []

variable {t : VarType} (h : Monoidal t.op t.makeNeutral)

include h

theorem reduce_eq {vars : List t.Value} (hvars : vars ≠ []) (s : Schedule t.Value)
    (value v : t.Value) :
    reduce t vars s value = vars.foldl t.op (t.makeNeutral v) := by
  have hpos : 0 < vars.length := List.length_pos_of_ne_nil hvars
  rw [reduce, dif_pos hpos, h.run_eq, between_getD, h.neutral_left, h.neutral_eq v]

theorem foldl_foldl (v x : t.Value) (lists : List (List t.Value)) :
    (lists.map fun ys => ys.foldl t.op (t.makeNeutral v)).foldl t.op x =
      lists.flatten.foldl t.op x := by
  induction lists generalizing x with
  | nil => rfl
  | cons ys lists ih =>
    rw [List.map_cons, List.foldl_cons, ih, List.flatten_cons, List.foldl_append, h.op_foldl]

end Fold

/-- The values of all contexts, by node and then by child. -/
def allValues (n : ℕ) (w : ℕ → VariableSet S) (id : Name) : List (S id).Value :=
  ((List.range n).map fun p => (w p).vars id).flatten

theorem outcome_eq {n q : ℕ} {mapper : Option (ℕ → ℕ)} (env : Environment S) {w : ℕ → VariableSet S}
    {id : Name} (h : Monoidal (S id).op (S id).makeNeutral)
    (hplaced : ∀ p < n, Placed mapper w id p)
    (hq : q < n) (v : (S id).Value) : outcome n mapper env w q id =
      (allValues n w id).foldl (S id).op ((S id).makeNeutral v) := by
  have hcontribution : ∀ p < n, contribution mapper env w id p =
      ((w p).vars id).foldl (S id).op ((S id).makeNeutral v) := by
    intro p hp
    rw [contribution, localValue]
    by_cases hbusy : busyAt mapper p = true
    · rw [if_pos hbusy]
      exact reduce_eq h ((hplaced p hp).mp hbusy) _ _ _
    · have hempty : (w p).vars id = [] := by
        by_contra hne
        exact hbusy ((hplaced p hp).mpr hne)
      rw [if_neg hbusy, hempty]
      exact h.neutral_eq _ _
  by_cases hn : 1 < n
  · have hvalues : (List.range n).map (contribution mapper env w id) =
        ((List.range n).map fun p => (w p).vars id).map fun ys =>
          ys.foldl (S id).op ((S id).makeNeutral v) := by
      rw [List.map_map]
      exact List.map_congr_left fun p hp => hcontribution p (List.mem_range.mp hp)
    rw [outcome, if_pos hn, reduce_eq h (by simp; omega) _ _ v, hvalues, foldl_foldl h]
    rfl
  · obtain ⟨rfl, rfl⟩ : n = 1 ∧ q = 0 := by omega
    rw [outcome, if_neg hn, hcontribution 0 hq]
    simp [allValues]

/-- After `reduce_all` all nodes have the fold of all contexts' values in every variable of
the reduce list. The contexts keep theirs, so the same happens when it is called again. -/
theorem reduceAll_folds {n : ℕ} (mapper : Option (ℕ → ℕ)) (env again : Environment S)
    {w : ℕ → VariableSet S} (hw : Consistent n w)
    (hplaced : ∀ p < n, ∀ id ∈ (w p).reduceList, Placed mapper w id p)
    (hred : ∀ p < n, ∀ id ∈ (w p).reduceList, Monoidal (S id).op (S id).makeNeutral) :
    (∀ q < n, ∀ id ∈ (w q).reduceList, ∀ v, (reduceAll n mapper env w q).value id =
      (allValues n w id).foldl (S id).op ((S id).makeNeutral v)) ∧
    (∀ q < n, (reduceAll n mapper env w q).vars = (w q).vars) ∧
    (∀ q < n, ∀ id ∈ (w q).reduceList,
      (reduceAll n mapper again (reduceAll n mapper env w) q).value id =
        (reduceAll n mapper env w q).value id) := by
  have hvars : ∀ q < n, (reduceAll n mapper env w q).vars = (w q).vars := fun q hq =>
    reduceAll_vars mapper env hw hq
  have hlist : ∀ p < n, ∀ q < n, ∀ id ∈ (w q).reduceList, id ∈ (w p).reduceList := by
    intro p hp q hq id hid
    rw [hw.lists p hp q hq]
    exact hid
  have hfirst : ∀ q < n, ∀ id ∈ (w q).reduceList, ∀ v, (reduceAll n mapper env w q).value id =
      (allValues n w id).foldl (S id).op ((S id).makeNeutral v) := by
    intro q hq id hid v
    have hall : ∀ p < n, Placed mapper w id p :=
      fun p hp => hplaced p hp id (hlist p hp q hq id hid)
    rw [reduceAll_value mapper env hw hq hid]
    exact outcome_eq env (hred q hq id hid) hall hq v
  refine ⟨hfirst, hvars, ?_⟩
  intro q hq id hid
  have hsame : allValues n (reduceAll n mapper env w) id = allValues n w id := by
    refine congrArg List.flatten (List.map_congr_left fun p hp => ?_)
    rw [hvars p (List.mem_range.mp hp)]
  have hall : ∀ p < n, Placed mapper (reduceAll n mapper env w) id p := by
    intro p hp
    rw [Placed, hvars p hp]
    exact hplaced p hp id (hlist p hp q hq id hid)
  have hid' : id ∈ (reduceAll n mapper env w q).reduceList := by
    obtain ⟨slot, heq⟩ := reduceAll_eq mapper env hw hq
    rw [heq]
    exact hid
  rw [reduceAll_value mapper again (reduceAll_consistent mapper env hw) hq hid',
    outcome_eq again (hred q hq id hid) hall hq ((w q).value id), hsame,
    hfirst q hq id hid ((w q).value id)]

section Single

variable (t : VarType) (name : Name) (value : t.Value) (children : ℕ → List t.Value)

def single (p : ℕ) : VariableSet fun _ => t where
  svl := .single name
  value _ := value
  vars _ := children p
  initializeList := .empty
  reduceList := .single name
  initialize_sub _ h := absurd h List.not_mem_nil
  reduce_sub _ h := h
  reduceSvl := .single name
  slot _ _ := value

def unsplit : Environment fun _ => t where
  dataset _ _ _ := .words 0 0
  target _ _ := .words 0 0
  unset _ := 0
  here _ _ := ⟨value, fun _ h => .chunk h⟩
  everywhere _ _ := ⟨value, fun _ h => .chunk h⟩

theorem single_consistent (n : ℕ) : Consistent n (single t name value children) :=
  ⟨fun _ _ _ _ => rfl, fun _ _ _ _ h => h⟩

theorem single_mem (p : ℕ) : name ∈ (single t name value children p).reduceList :=
  List.mem_singleton_self name

theorem single_placed (id : Name) (p : ℕ) :
    Placed (some fun p => (children p).length) (single t name value children) id p := by
  simp only [Placed, busyAt, single, decide_eq_true_eq]
  exact List.length_pos_iff

end Single

def byteSum : VarType where
  Value := UInt8
  op := (· + ·)
  makeNeutral _ := 0
  serialize v := [v]
  deserialize bytes old := bytes.headD old
  roundtrip := byte_roundtrip

theorem byteSum_monoidal : Monoidal byteSum.op byteSum.makeNeutral :=
  ⟨UInt8.add_assoc, fun _ => UInt8.zero_add, fun _ => UInt8.add_zero⟩

def byteChildren : ℕ → List UInt8
  | 0 => [3, 4]
  | 2 => [5]
  | _ => []

theorem reduceAll_folds_bytes :
    let w := single byteSum [105] (7 : UInt8) byteChildren
    let mapper := some fun p => (byteChildren p).length
    let env := unsplit byteSum (9 : UInt8)
    (∀ q < 3, (reduceAll 3 mapper env w q).value [105] = (12 : UInt8)) ∧
      (∀ q < 3, (reduceAll 3 mapper env w q).vars = (w q).vars) ∧
      ∀ q < 3, (reduceAll 3 mapper env (reduceAll 3 mapper env w) q).value [105] =
        (reduceAll 3 mapper env w q).value [105] := by
  intro w mapper env
  have hmem := single_mem byteSum [105] (7 : UInt8) byteChildren
  obtain ⟨hvalue, hvars, hagain⟩ := reduceAll_folds mapper env env
    (single_consistent byteSum [105] (7 : UInt8) byteChildren 3)
    (fun p _ id _ => single_placed byteSum [105] (7 : UInt8) byteChildren id p)
    (fun _ _ _ _ => byteSum_monoidal)
  refine ⟨fun q hq => ?_, hvars, fun q hq => hagain q hq [105] (hmem q)⟩
  rw [hvalue q hq [105] (hmem q) (0 : UInt8)]
  rfl

end BspOnMpi.SharedReduce
