import BspOnMpi.SerializedDataset
import BspOnMpi.Lib.SplitFold

/-! Sets of shared variables. `SharedVariable.h` and `bsp_sharedvariableset.cpp`. Every node has a
set of variables by names; the variables of its contexts are their children. A `std::set` of names
is walked in ascending order.

Variables of one name have one type on all nodes. The array of a reduce slot holds the values of
the other nodes; its entry for the own node is the variable itself. -/

namespace BspOnMpi.SharedVariableSet
open Lib Slots SerializedDataset

abbrev Name := List UInt8

instance (id : Name) (ids : List Name) : Decidable (id ∈ ids) := inferInstance

structure NameSet where
  names : List Name
  sorted : names.Pairwise (· < ·)

def NameSet.empty : NameSet := ⟨[], List.Pairwise.nil⟩

def NameSet.single (id : Name) : NameSet := ⟨[id], List.pairwise_singleton _ _⟩

instance : Membership Name NameSet := ⟨fun s id => id ∈ s.names⟩

instance (id : Name) (s : NameSet) : Decidable (id ∈ s) :=
  inferInstanceAs (Decidable (id ∈ s.names))

structure VarType where
  Value : Type
  op : Value → Value → Value
  makeNeutral : Value → Value
  serialize : Value → List UInt8
  deserialize : List UInt8 → Value → Value
  roundtrip : ∀ v old, deserialize (serialize v) old = v

theorem byte_roundtrip (v old : UInt8) : [v].headD old = v := rfl

structure Schedule (α : Type) where
  junk : α
  split : ∀ n, 0 < n → Split α 0 n

def reduce (t : VarType) (vars : List t.Value) (s : Schedule t.Value) (value : t.Value) : t.Value :=
  if h : 0 < vars.length then
    t.op (t.makeNeutral value) ((s.split vars.length h).run t.op t.makeNeutral
      (fun i => vars.getD i s.junk) (t.makeNeutral s.junk))
  else value

/-- `slot id p` is the value behind `reduce_svl[id][p]`, except for the own node. -/
structure VariableSet (S : Name → VarType) where
  svl : NameSet
  value : ∀ id, (S id).Value
  vars : ∀ id, List (S id).Value
  initializeList : NameSet
  reduceList : NameSet
  initialize_sub : ∀ id ∈ initializeList, id ∈ svl
  reduce_sub : ∀ id ∈ reduceList, id ∈ svl
  reduceSvl : NameSet
  slot : ∀ id, ℕ → (S id).Value

structure Environment (S : Name → VarType) where
  dataset : ℕ → ℕ → ℕ → Slot
  target : ℕ → ℕ → Slot
  unset : ℕ → ℕ
  here : ℕ → ∀ id, Schedule (S id).Value
  everywhere : ℕ → ∀ id, Schedule (S id).Value

section Reduce

variable {S : Name → VarType}

/-- The own variable of a node before the results are exchanged; a node is busy when it
has contexts. -/
def localValue (busy : Bool) (schedule : ∀ id, Schedule (S id).Value) (s : VariableSet S)
    (id : Name) :
    (S id).Value :=
  if busy then reduce (S id) (s.vars id) (schedule id) (s.value id)
  else (S id).makeNeutral (s.value id)

def reduceLocal (busy : Bool) (schedule : ∀ id, Schedule (S id).Value)
    (st : VariableSet S × Dataset) (id : Name) : VariableSet S × Dataset :=
  let v := localValue busy schedule st.1 id
  ({ st.1 with value := Function.update st.1.value id v }, addElem st.2 id ((S id).serialize v))

def reduceHere (busy : Bool) (schedule : ∀ id, Schedule (S id).Value) (fresh : ℕ → ℕ → Slot)
    (s : VariableSet S) : VariableSet S × Dataset :=
  s.reduceList.names.foldl (reduceLocal busy schedule) (s, create fresh s.reduceList.names.length)

def offset (sizes : ℕ → ℕ) (p : ℕ) : ℕ := ((List.range p).map sizes).sum

/-- `MPI_Allgatherv` of whole words into a block of bytes. Sizes and offsets are an `int` in the
source: all datasets together have fewer than 2^31 bytes. -/
def allgatherv (n : ℕ) (sds : ℕ → Dataset) (target : ℕ → Slot) : ℕ → Slot :=
  (List.range n).foldl (fun d p => store d (offset (fun p => size (sds p)) p / 8)
    (load (getData (sds p)) 0 (size (sds p) / 8))) target

/-- The dataset of node `p` as node `q` reopens it in the gathered block. -/
def otherDataset (n : ℕ) (sds : ℕ → Dataset) (target : ℕ → Slot) (unset p : ℕ) : Dataset :=
  let start := offset (fun p => size (sds p)) p / 8
  restart (ofBuffer (fun k => allgatherv n sds target (start + k)) (elements (sds p)) (size (sds p))
    unset)

/-- An element of node `p`. The cursor stays where it is when the name is unknown. -/
def receiveElem (p : ℕ) (st : VariableSet S × Dataset) : VariableSet S × Dataset :=
  let name := nextName st.2
  if name ∈ st.1.reduceSvl then
    let r := getElem st.2
    let v := (S name).deserialize r.1 (st.1.slot name (p + 1))
    ({ st.1 with
        slot := Function.update st.1.slot name (Function.update (st.1.slot name) (p + 1) v) }, r.2)
  else st

def receiveElems (p : ℕ) : ℕ → VariableSet S × Dataset → VariableSet S × Dataset
  | 0, st => st
  | k + 1, st => receiveElems p k (receiveElem p st)

def receiveAll (n q : ℕ) (other : ℕ → Dataset) (s : VariableSet S) : VariableSet S :=
  (List.range n).foldl (fun s p =>
    if p = q then s else (receiveElems p (elements (other p)) (s, other p)).1) s

/-- The children of `p[0]`, which are `p[1]`, ..., `p[n]`. -/
def nodeValues (n q : ℕ) (s : VariableSet S) (id : Name) : List (S id).Value :=
  (List.range n).map fun p => if p = q then s.value id else s.slot id (p + 1)

def reduceSlot (n q : ℕ) (schedule : ∀ id, Schedule (S id).Value) (s : VariableSet S) (id : Name) :
    VariableSet S :=
  let v := reduce (S id) (nodeValues n q s id) (schedule id) (s.slot id 0)
  { s with
    slot := Function.update s.slot id (Function.update (s.slot id) 0 v)
    value := Function.update s.value id v }

def busyAt (mapper : Option (ℕ → ℕ)) (q : ℕ) : Bool :=
  match mapper with
  | none => true
  | some procsThisNode => 0 < procsThisNode q

def reduceAll (n : ℕ) (mapper : Option (ℕ → ℕ)) (env : Environment S) (w : ℕ → VariableSet S)
    (q : ℕ) :
    VariableSet S :=
  let here := fun p => reduceHere (busyAt mapper p) (env.here p) (env.dataset p) (w p)
  if 1 < n then
    let other := otherDataset n (fun p => (here p).2) (env.target q) (env.unset q)
    let s := receiveAll n q other (here q).1
    (w q).reduceList.names.foldl (reduceSlot n q (env.everywhere q)) s
  else (here q).1

end Reduce

section Initialize

variable {S : Name → VarType}

def initialDataset (fresh : ℕ → ℕ → Slot) (master p : ℕ) (s : VariableSet S) : Dataset :=
  let dataset := create fresh s.initializeList.names.length
  if p = master then
    s.initializeList.names.foldl (fun ds id => addElem ds id ((S id).serialize (s.value id)))
      dataset
  else dataset

def expandElem (st : VariableSet S × Dataset) : VariableSet S × Dataset :=
  let name := nextName st.2
  if name ∈ st.1.svl then
    let r := getElem st.2
    let v := (S name).deserialize r.1 (st.1.value name)
    ({ st.1 with value := Function.update st.1.value name v }, r.2)
  else st

def expandElems : ℕ → VariableSet S × Dataset → VariableSet S × Dataset
  | 0, st => st
  | k + 1, st => expandElems k (expandElem st)

def initializeVar (s : VariableSet S) (id : Name) : VariableSet S :=
  { s with vars := Function.update s.vars id ((s.vars id).map fun _ => s.value id) }

def initializeAll (n : ℕ) (master : ℤ) (env : Environment S) (w : ℕ → VariableSet S) (q : ℕ) :
    VariableSet S :=
  let s :=
    if 1 < n ∧ 0 ≤ master then
      let sets := fun p => initialDataset (env.dataset p) master.toNat p (w p)
      let dataset := restart (broadcast sets master.toNat q)
      if (q : ℤ) ≠ master then (expandElems (elements dataset) (w q, dataset)).1 else w q
    else w q
  (w q).initializeList.names.foldl initializeVar s

end Initialize

theorem NameSet.nodup (s : NameSet) : s.names.Nodup :=
  s.sorted.imp fun h => by
    rintro rfl
    exact List.lt_irrefl _ h

theorem mem_names {id : Name} {s : NameSet} : id ∈ s ↔ id ∈ s.names := Iff.rfl

section Values

variable {S : Name → VarType}

def withValues (s : VariableSet S) (ids : List Name) (v : ∀ id, (S id).Value) : VariableSet S :=
  { s with value := fun id => if id ∈ ids then v id else s.value id }

def recordsOf (ids : List Name) (v : ∀ id, (S id).Value) : List Element :=
  ids.map fun id => (id, (S id).serialize (v id))

section Records

variable {ids : List Name} {v : ∀ id, (S id).Value} {n k : ℕ} {ds : Dataset}
  (hds : At ds n (recordsOf ids v) k) (hk : k < ids.length)

include hds hk

theorem nextName_record : nextName ds = ids[k] := by
  have hk' : k < (recordsOf ids v).length := by simpa [recordsOf] using hk
  simpa [recordsOf] using nextName_at hds hk'

theorem getElem_record : (getElem ds).1 = (S ids[k]).serialize (v ids[k]) ∧
    At (getElem ds).2 n (recordsOf ids v) (k + 1) := by
  have hk' : k < (recordsOf ids v).length := by simpa [recordsOf] using hk
  simpa [recordsOf] using getElem_at hds hk'

end Records

end Values

end BspOnMpi.SharedVariableSet
