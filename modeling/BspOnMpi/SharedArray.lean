import BspOnMpi.Slots
import Mathlib.Algebra.Order.BigOperators.Group.List

/-! Shared arrays. `SharedArray.h`. An array of scalars is serialised as its length and a copy of
its data, an array of objects as its length and for every element a length and what the element
writes. `none` is a failed assertion.

The allocation of `n` elements contains `fresh n`. The loops of the source count with an `int`:
arrays have fewer than 2^31 elements, and come from the declared constructors (the implicit copy
of a `SharedArray` shares its data). -/

namespace BspOnMpi.SharedArray
open Lib Slots

def sizeBytes (n : ℕ) : List UInt8 := (List.range 8).map fun i => UInt8.ofNat (n / 256 ^ i)

def loadSize (mem : Mem) (a : ℕ) : ℕ := (load mem a 8).foldr (fun b n => b.toNat + 256 * n) 0

structure ByteSerializable where
  Value : Type
  serializedSize : Value → ℕ
  serialize : Value → Mem → ℕ → ℕ → Option Mem
  deserialize : Value → Mem → ℕ → ℕ → Option Value

structure Scalar where
  Value : Type
  sizeof : ℕ
  bytes : Value → List UInt8
  ofBytes : List UInt8 → Value
  sizeof_pos : 0 < sizeof
  bytes_length : ∀ v, (bytes v).length = sizeof
  ofBytes_bytes : ∀ v, ofBytes (bytes v) = v

section Array

variable {α : Type} (makeNeutral : α → α) (fresh : ℕ → ℕ → α)

/-- The elements that are there are copied, the others made neutral. -/
def resize (newSize : ℕ) (a : List α) : List α :=
  if newSize = a.length then a
  else a.take newSize ++ (List.range (newSize - a.length)).map fun i =>
    makeNeutral (fresh newSize (a.length + i))

theorem resize_length (newSize : ℕ) (a : List α) :
    (resize makeNeutral fresh newSize a).length = newSize := by
  unfold resize
  split
  · omega
  · rw [List.length_append, List.length_take, List.length_map, List.length_range]
    omega

end Array

def scalarArray (s : Scalar) (makeNeutral : s.Value → s.Value) (fresh : ℕ → ℕ → s.Value) :
    ByteSerializable where
  Value := List s.Value
  serializedSize a := s.sizeof * a.length + 8
  serialize a mem target nbytes :=
    if s.sizeof * a.length + 8 ≤ nbytes then
      let mem := store mem target (sizeBytes a.length)
      some (store mem (target + 8) (a.flatMap s.bytes))
    else none
  deserialize a mem source nbytes :=
    let size := loadSize mem source
    let a := if size ≠ a.length then resize makeNeutral fresh size a else a
    if a.length * s.sizeof ≤ nbytes then
      some ((List.range a.length).map fun i =>
        s.ofBytes (load mem (source + 8 + i * s.sizeof) s.sizeof))
    else none

section Objects

variable (t : ByteSerializable)

def writeObjects : List t.Value → Mem → ℕ → Option Mem
  | [], mem, _ => some mem
  | el :: a, mem, cts =>
    let sz := t.serializedSize el
    let mem := store mem cts (sizeBytes sz)
    (t.serialize el mem (cts + 8) sz).bind fun mem => writeObjects a mem (cts + 8 + sz)

def readObjects (mem : Mem) : List t.Value → ℕ → Option (List t.Value)
  | [], _ => some []
  | el :: a, css =>
    let sz := loadSize mem css
    (t.deserialize el mem (css + 8) sz).bind fun v =>
      (readObjects mem a (css + 8 + sz)).map fun vs => v :: vs

def objectsSize (a : List t.Value) : ℕ :=
  a.foldl (fun overallSize el => overallSize + (8 + t.serializedSize el)) 8

end Objects

def objectArray (t : ByteSerializable) (makeNeutral : t.Value → t.Value)
    (fresh : ℕ → ℕ → t.Value) : ByteSerializable where
  Value := List t.Value
  serializedSize := objectsSize t
  serialize a mem target nbytes :=
    if objectsSize t a ≤ nbytes then
      writeObjects t a (store mem target (sizeBytes a.length)) (target + 8)
    else none
  deserialize a mem source _nbytes :=
    let size := loadSize mem source
    let a := if size ≠ a.length then resize makeNeutral fresh size a else a
    readObjects t mem a (source + 8)

/-- `serialize` writes the bytes, as many as announced, and from these bytes `deserialize`
restores the value whatever was there before. -/
structure RoundTripsAs (t : ByteSerializable) (v : t.Value) (bytes : List UInt8) : Prop where
  length : bytes.length = t.serializedSize v
  writes : ∀ mem target,
    t.serialize v mem target (t.serializedSize v) = some (store mem target bytes)
  reads : ∀ old mem source, load mem source (t.serializedSize v) = bytes →
    t.deserialize old mem source (t.serializedSize v) = some v

def RoundTrips (t : ByteSerializable) : Prop :=
  ∀ v, t.serializedSize v < 2 ^ 64 → ∃ bytes, RoundTripsAs t v bytes

section Words

@[simp] theorem sizeBytes_length (n : ℕ) : (sizeBytes n).length = 8 := by simp [sizeBytes]

theorem loadSize_of_bytes {mem : Mem} {a n : ℕ} (hn : n < 2 ^ 64)
    (h : load mem a 8 = sizeBytes n) : loadSize mem a = n := by
  rw [loadSize, h]
  simp [sizeBytes, List.range_succ]
  omega

theorem load_prefix {mem : Mem} {a n : ℕ} {xs ys : List UInt8} (h : load mem a n = xs ++ ys)
    (hn : n = xs.length + ys.length) :
    load mem a xs.length = xs ∧ load mem (a + xs.length) ys.length = ys := by
  rw [hn, load_add] at h
  exact List.append_inj h (by rw [load_length])

end Words

section Scalars

variable (s : Scalar)

theorem scalars_length (a : List s.Value) : (a.flatMap s.bytes).length = s.sizeof * a.length := by
  induction a with
  | nil => rfl
  | cons x a ih =>
    rw [List.flatMap_cons, List.length_append, ih, s.bytes_length, List.length_cons, Nat.mul_succ,
      Nat.add_comm]

theorem scalars_read {mem : Mem} {p : ℕ} {a : List s.Value}
    (h : load mem p (s.sizeof * a.length) = a.flatMap s.bytes) :
    ((List.range a.length).map fun i => s.ofBytes (load mem (p + i * s.sizeof) s.sizeof)) = a := by
  induction a generalizing p with
  | nil => rfl
  | cons x a ih =>
    rw [List.flatMap_cons] at h
    obtain ⟨hx, ha⟩ := load_prefix h (by
      rw [s.bytes_length, scalars_length, List.length_cons, Nat.mul_succ, Nat.add_comm])
    rw [s.bytes_length] at hx ha
    rw [scalars_length] at ha
    rw [List.length_cons, List.range_succ_eq_map, List.map_cons, List.map_map, Nat.zero_mul,
      Nat.add_zero, hx, s.ofBytes_bytes]
    congr 1
    refine Eq.trans (List.map_congr_left fun i _ => ?_) (ih ha)
    have hindex : p + (i + 1) * s.sizeof = p + s.sizeof + i * s.sizeof := by
      rw [Nat.succ_mul]
      omega
    rw [Function.comp_apply, Nat.succ_eq_add_one, hindex]

theorem scalarArray_roundTrips (makeNeutral : s.Value → s.Value) (fresh : ℕ → ℕ → s.Value) :
    RoundTrips (scalarArray s makeNeutral fresh) := by
  intro (a : List s.Value) (hsize : s.sizeof * a.length + 8 < 2 ^ 64)
  have hlen : a.length < 2 ^ 64 := by
    have hle := Nat.le_mul_of_pos_left a.length s.sizeof_pos
    omega
  refine ⟨sizeBytes a.length ++ a.flatMap s.bytes, ?_, fun mem target => ?_,
    fun (old : List s.Value) mem source hload => ?_⟩
  · rw [List.length_append, sizeBytes_length, scalars_length]
    exact Nat.add_comm _ _
  · show (if s.sizeof * a.length + 8 ≤ s.sizeof * a.length + 8 then _ else _) = _
    rw [if_pos le_rfl, ← store_append, sizeBytes_length]
  · obtain ⟨hhead, hdata⟩ := load_prefix hload (by
      rw [sizeBytes_length, scalars_length]
      exact Nat.add_comm _ _)
    rw [sizeBytes_length] at hhead hdata
    rw [scalars_length] at hdata
    have hread := scalars_read s hdata
    have hword := loadSize_of_bytes hlen hhead
    have hresized : ∀ b : List s.Value, b.length = a.length →
        (if b.length * s.sizeof ≤ s.sizeof * a.length + 8 then
          some ((List.range b.length).map fun i =>
            s.ofBytes (load mem (source + 8 + i * s.sizeof) s.sizeof)) else none) = some a := by
      intro b hb
      rw [hb, if_pos (by rw [Nat.mul_comm]; omega), hread]
    simp only [scalarArray, hword]
    split
    · exact hresized _ (resize_length ..)
    · rename_i hsame
      exact hresized old (by omega)

end Scalars

section Objects

variable {t : ByteSerializable}

theorem objectsSize_eq (a : List t.Value) :
    objectsSize t a = 8 + (a.map fun el => 8 + t.serializedSize el).sum := by
  have hfold : ∀ (a : List t.Value) (n : ℕ),
      a.foldl (fun overallSize el => overallSize + (8 + t.serializedSize el)) n =
        n + (a.map fun el => 8 + t.serializedSize el).sum := by
    intro a
    induction a with
    | nil => intro n; rfl
    | cons el a ih =>
      intro n
      rw [List.foldl_cons, ih, List.map_cons, List.sum_cons, Nat.add_assoc]
  exact hfold a 8

def records (t : ByteSerializable) (bytes : t.Value → List UInt8) (a : List t.Value) : List UInt8 :=
  a.flatMap fun el => sizeBytes (t.serializedSize el) ++ bytes el

variable {bytes : t.Value → List UInt8} {a : List t.Value}

theorem records_length (h : ∀ el ∈ a, RoundTripsAs t el (bytes el)) :
    (records t bytes a).length = (a.map fun el => 8 + t.serializedSize el).sum := by
  rw [records, List.length_flatMap]
  congr 1
  apply List.map_congr_left
  intro el hel
  rw [List.length_append, sizeBytes_length, (h el hel).length]

theorem writeObjects_spec (h : ∀ el ∈ a, RoundTripsAs t el (bytes el)) (mem : Mem) (cts : ℕ) :
    writeObjects t a mem cts = some (store mem cts (records t bytes a)) := by
  induction a generalizing mem cts with
  | nil => rw [writeObjects, records, List.flatMap_nil, store_nil]
  | cons el a ih =>
    obtain ⟨hel, ha⟩ := List.forall_mem_cons.mp h
    have hcons : records t bytes (el :: a) =
        sizeBytes (t.serializedSize el) ++ bytes el ++ records t bytes a := rfl
    rw [writeObjects, hel.writes, Option.bind_some, ih ha, hcons, ← store_append, ← store_append,
      List.length_append, sizeBytes_length, hel.length, Nat.add_assoc cts]

theorem readObjects_spec (h : ∀ el ∈ a, RoundTripsAs t el (bytes el))
    (hsize : ∀ el ∈ a, t.serializedSize el < 2 ^ 64) {mem : Mem} {css : ℕ}
    (hload : load mem css (records t bytes a).length = records t bytes a)
    {old : List t.Value} (hold : old.length = a.length) :
    readObjects t mem old css = some a := by
  induction a generalizing css old with
  | nil =>
    rw [List.length_eq_zero_iff.mp hold]
    rfl
  | cons el a ih =>
    obtain ⟨hel, ha⟩ := List.forall_mem_cons.mp h
    obtain ⟨hsel, hsa⟩ := List.forall_mem_cons.mp hsize
    cases old with
    | nil => cases hold
    | cons x old =>
      have hcons : records t bytes (el :: a) =
          sizeBytes (t.serializedSize el) ++ (bytes el ++ records t bytes a) := by
        rw [records, List.flatMap_cons, List.append_assoc, ← records]
      rw [hcons] at hload
      obtain ⟨hhead, hrest⟩ := load_prefix hload List.length_append
      obtain ⟨hbytes, hrecords⟩ := load_prefix hrest List.length_append
      rw [sizeBytes_length] at hhead hbytes hrecords
      rw [hel.length] at hbytes hrecords
      rw [readObjects, loadSize_of_bytes hsel hhead, hel.reads x mem _ hbytes, Option.bind_some,
        ih ha hsa hrecords (Nat.succ_injective hold)]
      rfl

theorem objectArray_roundTrips (h : RoundTrips t) (makeNeutral : t.Value → t.Value)
    (fresh : ℕ → ℕ → t.Value) : RoundTrips (objectArray t makeNeutral fresh) := by
  intro (a : List t.Value) (hsize : objectsSize t a < 2 ^ 64)
  rw [objectsSize_eq] at hsize
  have helements : ∀ el ∈ a, t.serializedSize el < 2 ^ 64 := by
    intro el hel
    have hle := List.le_sum_of_mem
      (List.mem_map_of_mem (f := fun el => 8 + t.serializedSize el) hel)
    omega
  have hlen : a.length < 2 ^ 64 := by
    have hle := List.card_nsmul_le_sum (a.map fun el => 8 + t.serializedSize el) 1 (by
      intro x hx
      obtain ⟨el, -, rfl⟩ := List.mem_map.mp hx
      omega)
    rw [List.length_map, nsmul_eq_mul, Nat.cast_id, Nat.mul_one] at hle
    omega
  choose bytes hbytes using h
  let enc : t.Value → List UInt8 := fun el =>
    if hel : t.serializedSize el < 2 ^ 64 then bytes el hel else []
  have henc : ∀ el ∈ a, RoundTripsAs t el (enc el) := by
    intro el hel
    simp only [enc, dif_pos (helements el hel)]
    exact hbytes el (helements el hel)
  have hrecords := records_length henc
  refine ⟨sizeBytes a.length ++ records t enc a, ?_, fun mem target => ?_,
    fun (old : List t.Value) mem source hload => ?_⟩
  · rw [List.length_append, sizeBytes_length, hrecords]
    exact (objectsSize_eq a).symm
  · show (if objectsSize t a ≤ objectsSize t a then _ else _) = _
    rw [if_pos le_rfl, writeObjects_spec henc, ← store_append, sizeBytes_length]
  · obtain ⟨hhead, hdata⟩ := load_prefix hload (by
      rw [sizeBytes_length, hrecords]
      exact objectsSize_eq a)
    rw [sizeBytes_length] at hhead hdata
    have hword := loadSize_of_bytes hlen hhead
    simp only [objectArray, hword]
    split
    · exact readObjects_spec henc helements hdata (resize_length ..)
    · rename_i hsame
      exact readObjects_spec henc helements hdata (by omega)

end Objects

/-- The types `SharedArray<_el, _red>`: of scalars, of objects that round-trip, and of shared
arrays, with any reducer. -/
inductive IsSharedArray : ByteSerializable → Prop
  | scalars (s : Scalar) (makeNeutral : s.Value → s.Value) (fresh : ℕ → ℕ → s.Value) :
    IsSharedArray (scalarArray s makeNeutral fresh)
  | objects {t : ByteSerializable} (h : RoundTrips t) (makeNeutral : t.Value → t.Value)
    (fresh : ℕ → ℕ → t.Value) : IsSharedArray (objectArray t makeNeutral fresh)
  | arrays {t : ByteSerializable} (h : IsSharedArray t) (makeNeutral : t.Value → t.Value)
    (fresh : ℕ → ℕ → t.Value) : IsSharedArray (objectArray t makeNeutral fresh)

/-- Shared arrays of any depth round-trip. -/
theorem sharedArray_roundTrips {t : ByteSerializable} (h : IsSharedArray t) : RoundTrips t := by
  induction h with
  | scalars s makeNeutral fresh => exact scalarArray_roundTrips s makeNeutral fresh
  | objects h makeNeutral fresh => exact objectArray_roundTrips h makeNeutral fresh
  | arrays h makeNeutral fresh ih => exact objectArray_roundTrips ih makeNeutral fresh

def byteScalar : Scalar where
  Value := UInt8
  sizeof := 1
  bytes v := [v]
  ofBytes bs := bs.headD 0
  sizeof_pos := Nat.one_pos
  bytes_length _ := rfl
  ofBytes_bytes _ := rfl

def nestedBytes : ByteSerializable :=
  objectArray (scalarArray byteScalar id fun _ _ => (0 : UInt8)) id fun _ _ => ([] : List UInt8)

theorem sharedArray_roundTrips_nested :
    ∃ bytes, RoundTripsAs nestedBytes ([[7, 8], []] : List (List UInt8)) bytes :=
  sharedArray_roundTrips (.arrays (.scalars byteScalar _ _) _ _) ([[7, 8], []] : List (List UInt8))
    (by decide)

end BspOnMpi.SharedArray
