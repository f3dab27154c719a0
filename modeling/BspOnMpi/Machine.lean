import BspOnMpi.Memreg
import BspOnMpi.Slots

/-! The machine of a superstep. What the library is for, without tables. Every processor makes a
list of calls; a call has its remote address translated and its bytes copied. The end of the
superstep changes a processor by what the lists of all processors address to it. -/

namespace BspOnMpi.Machine
open Lib Memreg Slots

structure Message where
  tag : List UInt8
  payload : List UInt8

inductive Call
  | put (pid dst : ℕ) (bytes : List UInt8)
  | get (pid src : ℕ) (offset : ℤ) (dst size : ℕ)
  | send (pid : ℕ) (m : Message)
  | pushReg (ident : ℕ)
  | popReg (ident : ℕ)
  | setTagsize (size : ℕ)

def putsTo (q : ℕ) (cs : List Call) : List (ℕ × List UInt8) :=
  cs.filterMap fun
    | .put pid dst bytes => if pid = q then some (dst, bytes) else none
    | _ => none

/-- The writes by which processor `p` with memory `mem` answers the gets among `cs`. -/
def answersOf (p : ℕ) (mem : Mem) (cs : List Call) : List (ℕ × List UInt8) :=
  cs.filterMap fun
    | .get pid src offset dst size =>
      if pid = p then some (dst, load mem (addOffset src offset) size) else none
    | _ => none

def sendsTo (q : ℕ) (cs : List Call) : List Message :=
  cs.filterMap fun
    | .send pid m => if pid = q then some m else none
    | _ => none

def pushes (cs : List Call) : List ℕ :=
  cs.filterMap fun
    | .pushReg ident => some ident
    | _ => none

def pops (cs : List Call) : List ℕ :=
  cs.filterMap fun
    | .popReg ident => some ident
    | _ => none

def tagSizes (cs : List Call) : List ℕ :=
  cs.filterMap fun
    | .setTagsize size => some size
    | _ => none

section Superstep

variable (n : ℕ) (cs : ℕ → List Call)

/-- The writes to processor `q`: from every processor first its puts and then its answers. -/
def writesTo (mem : ℕ → Mem) (q : ℕ) : List (ℕ × List UInt8) :=
  (List.range n).flatMap fun p => putsTo q (cs p) ++ answersOf p (mem p) (cs q)

def memAfter (mem : ℕ → Mem) (q : ℕ) : Mem := writeAll (mem q) (writesTo n cs mem q)

def inboxAfter (q : ℕ) : List Message := (List.range n).flatMap fun p => sendsTo q (cs p)

/-- The rows that collective pushes add: row `k` is made of everyone's push number `k`. -/
def newRows : List Row :=
  (List.range (pushes (cs 0)).length).map fun k => below n fun p => (pushes (cs p)).getD k 0

/-- Pops of processor `q`, each of the last row that holds the address. -/
def popRows (q : ℕ) (rs : List Row) (as : List ℕ) : List Row :=
  as.foldl (fun rs a => eraseLast (fun r => r q = a) rs) rs

/-- The rows that processor `q` keeps: all pushes of a superstep precede its pops. -/
def rowsAfter (rs : List Row) (q : ℕ) : List Row := popRows q (rs ++ newRows n cs) (pops (cs q))

end Superstep

def tagAfter (size : ℕ) (cs : List Call) : ℕ := (tagSizes cs).foldl (fun _ s => s) size

def Poppable (q : ℕ) : List Row → List ℕ → Prop
  | _, [] => True
  | rs, a :: as => (∃ r ∈ rs, r q = a) ∧ Poppable q (eraseLast (fun r => r q = a) rs) as

end BspOnMpi.Machine
