import BspOnMpi.ContextBsmp

/-! Unbuffered messages between contexts. What becomes of a superstep when one `bsp_send` in it is
replaced by `bsp_hpsend`. Both reach the same queue if the target is on the own node. To another
node `bsp_hpsend` uses the global pid of the target where `bsp_send` uses its node. -/

namespace BspOnMpi.ContextHpsend
open Lib Exptable Slots Delivtable DelivPush Memreg Machine Calls Mapper ContextMemreg
  LocalDelivery Contexts
  ContextLog ContextSync ContextSuperstep ContextProgram ContextBsmp
open Bspx hiding exec

structure SameMoves (c d : LocalDeliveryQueue) : Prop where
  buffer : d.messageMoveBuffer = c.messageMoveBuffer
  queue : d.messageMoveQueue = c.messageMoveQueue
  bytes : d.bytesToMove = c.bytesToMove

/-- Everything that operations read is the same. -/
structure Alike (node node' : Node) : Prop where
  mem : node'.proc.mem = node.proc.mem
  rank : node'.proc.bsp.rank = node.proc.bsp.rank
  mesgq : node'.proc.bsp.messageQueue = node.proc.bsp.messageQueue
  received : node'.proc.bsp.deliveryReceivedTable = node.proc.bsp.deliveryReceivedTable
  columns : node'.proc.bsp.deliveryTable.nprocs = node.proc.bsp.deliveryTable.nprocs
  reg : ∀ lp, (node'.contexts lp).reg = (node.contexts lp).reg
  moves : ∀ lp, SameMoves (node.contexts lp).localDeliveries (node'.contexts lp).localDeliveries

section Alike

variable {node node' : Node} {c d : LocalDeliveryQueue}

theorem sameMoves_qsize (h : SameMoves c d) : d.bsmpQsize = c.bsmpQsize := by
  rw [LocalDeliveryQueue.bsmpQsize, LocalDeliveryQueue.bsmpQsize, h.queue]

theorem sameMoves_topSize (h : SameMoves c d) : d.bsmpTopSize = c.bsmpTopSize := by
  rw [LocalDeliveryQueue.bsmpTopSize, LocalDeliveryQueue.bsmpTopSize, h.queue]

theorem sameMoves_advance (h : SameMoves c d) : SameMoves c.bsmpAdvance d.bsmpAdvance := by
  rw [LocalDeliveryQueue.bsmpAdvance, LocalDeliveryQueue.bsmpAdvance, h.queue]
  split
  · exact h
  · exact ⟨h.buffer, rfl, by rw [h.bytes]⟩

theorem sameMoves_top (h : SameMoves c d) :
    d.bsmpTopTag = c.bsmpTopTag ∧ d.bsmpTopMessage = c.bsmpTopMessage := by
  constructor
  · rw [LocalDeliveryQueue.bsmpTopTag, LocalDeliveryQueue.bsmpTopTag, h.queue]
  · rw [LocalDeliveryQueue.bsmpTopMessage, LocalDeliveryQueue.bsmpTopMessage, h.queue]

theorem alike_readFrom (h : Alike node node') (b : MessageBuffer) (place : ℕ ⊕ Pointer) (n : ℕ) :
    readFrom node'.proc b place n = readFrom node.proc b place n := by
  rcases place with offset | pointer
  · rfl
  · cases pointer with
    | memory address => simp only [readFrom, readPointer, h.mem]
    | received byte => simp only [readFrom, readPointer, h.received]

theorem alike_findBase (h : Alike node node') (lp pid base : ℕ) :
    findBase (node'.contexts lp) pid base = findBase (node.contexts lp) pid base := by
  rw [findBase, findBase, h.reg]

theorem alike_onMem (h : Alike node node') (mem : Mem) : Alike (node.onMem mem) (node'.onMem mem) :=
  ⟨rfl, h.rank, h.mesgq, h.received, h.columns, h.reg, h.moves⟩

theorem alike_onBsp (h : Alike node node') {bsp bsp' : BSPObject} (hrank : bsp'.rank = bsp.rank)
    (hmesgq : bsp'.messageQueue = bsp.messageQueue)
    (hreceived : bsp'.deliveryReceivedTable = bsp.deliveryReceivedTable)
    (hcolumns : bsp'.deliveryTable.nprocs = bsp.deliveryTable.nprocs) :
    Alike (node.onBsp bsp) (node'.onBsp bsp') :=
  ⟨h.mem, hrank, hmesgq, hreceived, hcolumns, h.reg, h.moves⟩

theorem alike_onQueue (h : Alike node node') (l : ℕ)
    {f f' : LocalDeliveryQueue → LocalDeliveryQueue}
    (hf : ∀ c d, SameMoves c d → SameMoves (f c) (f' d)) :
    Alike (node.onQueue l f) (node'.onQueue l f') := by
  refine ⟨h.mem, h.rank, h.mesgq, h.received, h.columns, fun lp => ?_, fun lp => ?_⟩
  · rw [onQueue_reg, onQueue_reg, h.reg]
  · by_cases hl : lp = l
    · subst hl
      simp only [Node.onQueue, Function.update_self]
      exact hf _ _ (h.moves lp)
    · simp only [Node.onQueue, Function.update_of_ne hl]
      exact h.moves lp

theorem alike_onReg (h : Alike node node') (l : ℕ) (reg : ContextReg) :
    Alike (node.onReg l reg) (node'.onReg l reg) := by
  refine ⟨h.mem, h.rank, h.mesgq, h.received, h.columns, fun lp => ?_, fun lp => ?_⟩
  · by_cases hl : lp = l
    · subst hl
      simp only [Node.onReg, Function.update_self]
    · simp only [Node.onReg, Function.update_of_ne hl, h.reg]
  · by_cases hl : lp = l
    · subst hl
      simp only [Node.onReg, Function.update_self]
      exact h.moves lp
    · simp only [Node.onReg, Function.update_of_ne hl]
      exact h.moves lp

theorem remoteSend_frame {p : Proc} {column lp nbytes : ℕ} {tag payload : List UInt8}
    {bsp : BSPObject}
    (h : remoteSend p column lp tag payload nbytes = some bsp) :
    column < p.bsp.deliveryTable.nprocs ∧ bsp.rank = p.bsp.rank ∧
      bsp.messageQueue = p.bsp.messageQueue ∧
      bsp.deliveryReceivedTable = p.bsp.deliveryReceivedTable ∧
      bsp.deliveryTable.nprocs = p.bsp.deliveryTable.nprocs := by
  rw [remoteSend] at h
  split at h
  · cases h
    exact ⟨‹_›, rfl, rfl, rfl, delivPush_nprocs _ _ _ .send⟩
  · cases h

theorem remoteSend_defined {p : Proc} {column : ℕ} (hc : column < p.bsp.deliveryTable.nprocs)
    (lp : ℕ) (tag payload : List UInt8) (nbytes : ℕ) :
    ∃ bsp, remoteSend p column lp tag payload nbytes = some bsp :=
  ⟨_, if_pos hc⟩

theorem alike_remoteSend (h : Alike node node') {column column' lp lp' nbytes nbytes' : ℕ}
    {tag payload tag' payload' : List UInt8} {bsp bsp' : BSPObject}
    (hs : remoteSend node.proc column lp tag payload nbytes = some bsp)
    (hs' : remoteSend node'.proc column' lp' tag' payload' nbytes' = some bsp') :
    Alike (node.onBsp bsp) (node'.onBsp bsp') := by
  obtain ⟨-, h1, h2, h3, h4⟩ := remoteSend_frame hs
  obtain ⟨-, h1', h2', h3', h4'⟩ := remoteSend_frame hs'
  exact alike_onBsp h (by rw [h1, h1', h.rank]) (by rw [h2, h2', h.mesgq])
    (by rw [h3, h3', h.received])
    (by rw [h4, h4', h.columns])

end Alike

section Exec

variable {processors nnodes rank : ℕ} {node node' : Node}

theorem getTag_alike (h : Alike node node') (l tag : ℕ) :
    (bspGetTag node'.proc (node'.contexts l).localDeliveries tag).2 =
      (bspGetTag node.proc (node.contexts l).localDeliveries tag).2 := by
  have hm := h.moves l
  simp only [bspGetTag, sameMoves_qsize hm, (sameMoves_top hm).1, hm.buffer, alike_readFrom h,
    h.mesgq, h.mem]
  split <;> rfl

theorem move_alike (h : Alike node node') (l target nbytes : ℕ) {r : LocalDeliveryQueue × Mem}
    (hr : bspMove node.proc (node.contexts l).localDeliveries target nbytes = some r) :
    ∃ d, bspMove node'.proc (node'.contexts l).localDeliveries target nbytes = some (d, r.2) ∧
      SameMoves r.1 d := by
  have hm := h.moves l
  rw [bspMove] at hr ⊢
  rw [sameMoves_qsize hm, sameMoves_topSize hm, (sameMoves_top hm).2, hm.buffer,
    alike_readFrom h, h.mem]
  split at hr
  · split at hr
    · cases hr
      rw [if_pos ‹_›, if_pos ‹_›]
      exact ⟨_, rfl, sameMoves_advance hm⟩
    · cases hr
  · cases hr
    rw [if_neg ‹_›]
    exact ⟨_, rfl, hm⟩

theorem found_alike (h : Alike node node') {lp pid base : ℕ} {f f' : ℕ → Node}
    (hf : ∀ address, Alike (f address) (f' address)) {next : Node}
    (hs : (findBase (node.contexts lp) pid base).map f = some next) :
    ∃ next', (findBase (node'.contexts lp) pid base).map f' = some next' ∧ Alike next next' := by
  obtain ⟨address, haddress, rfl⟩ := Option.map_eq_some_iff.mp hs
  rw [← alike_findBase h] at haddress
  exact ⟨f' address, congrArg (Option.map f') haddress, hf address⟩

theorem alike_remotePut (h : Alike node node') (n address nbytes : ℕ) (bytes : List UInt8) :
    Alike (node.onBsp (remotePut node.proc n address bytes nbytes))
      (node'.onBsp (remotePut node'.proc n address bytes nbytes)) := by
  refine alike_onBsp h h.rank h.mesgq h.received ?_
  simp only [remotePut, pushPayload_nprocs, h.columns]

theorem alike_remoteGet (h : Alike node node') (n base dst nbytes : ℕ) (offset : ℤ) :
    Alike (node.onBsp (remoteGet node.proc n base offset dst nbytes))
      (node'.onBsp (remoteGet node'.proc n base offset dst nbytes)) :=
  alike_onBsp h h.rank h.mesgq h.received h.columns

theorem exec_alike (e : ℕ × ContextOp) (h : Alike node node') {next : Node}
    (hs : exec processors nnodes rank e node = some next) :
    ∃ next', exec processors nnodes rank e node' = some next' ∧ Alike next next' := by
  obtain ⟨l, op⟩ := e
  cases op with
  | pushReg | popReg =>
    obtain ⟨reg, hreg, rfl⟩ := Option.map_eq_some_iff.mp hs
    rw [← h.reg] at hreg
    exact ⟨_, congrArg (Option.map _) hreg, alike_onReg h l reg⟩
  | put pid src dst offset nbytes =>
    refine found_alike h (fun address => ?_) hs
    rw [h.rank, h.mem]
    split
    · exact alike_onQueue h l fun c d hcd => ⟨hcd.buffer, hcd.queue, hcd.bytes⟩
    · exact alike_remotePut h ..
  | hpput pid src dst offset nbytes =>
    refine found_alike h (fun address => ?_) hs
    rw [h.rank, h.mem]
    split
    · exact alike_onMem h _
    · exact alike_remotePut h ..
  | get pid src offset dst nbytes =>
    refine found_alike h (fun address => ?_) hs
    rw [h.rank]
    split
    · exact alike_onQueue h l fun c d hcd => ⟨hcd.buffer, hcd.queue, hcd.bytes⟩
    · exact alike_remoteGet h ..
  | hpget pid src offset dst nbytes =>
    refine found_alike h (fun address => ?_) hs
    rw [h.rank, h.mem]
    split
    · exact alike_onMem h _
    · exact alike_remoteGet h ..
  | send | hpsend =>
    simp only [exec] at hs ⊢
    rw [h.rank]
    split at hs
    · cases hs
      rw [if_pos ‹_›]
      exact ⟨_, rfl, alike_onQueue h _ fun c d hcd => ⟨hcd.buffer, hcd.queue, hcd.bytes⟩⟩
    · obtain ⟨bsp, hbsp, rfl⟩ := Option.map_eq_some_iff.mp hs
      rw [if_neg ‹_›]
      obtain ⟨bsp', hbsp'⟩ := remoteSend_defined
        (by rw [h.columns]; exact (remoteSend_frame hbsp).1) _ _ _ _
      exact ⟨_, congrArg (Option.map _) hbsp', alike_remoteSend h hbsp hbsp'⟩
  | setTagsize tagNbytes =>
    cases hs
    refine ⟨_, rfl, alike_onBsp h h.rank h.mesgq h.received ?_⟩
    simp only [bspxSetTagsize, delivPush_nprocs, h.columns]
  | getTag tag =>
    cases hs
    refine ⟨_, rfl, ?_⟩
    rw [getTag_alike h]
    exact alike_onMem h _
  | move target nbytes =>
    obtain ⟨r, hr, rfl⟩ := Option.map_eq_some_iff.mp hs
    obtain ⟨d, hd, hrd⟩ := move_alike h l target nbytes hr
    exact ⟨_, congrArg (Option.map _) hd, alike_onQueue (alike_onMem h _) l fun _ _ _ => hrd⟩
  | hpmove =>
    cases hs
    refine ⟨_, rfl, alike_onQueue h l fun c d hcd => ?_⟩
    rw [bspHpmove, bspHpmove, sameMoves_qsize hcd]
    split
    · exact sameMoves_advance hcd
    · exact hcd
  | compute f =>
    cases hs
    refine ⟨_, rfl, ?_⟩
    rw [h.mem]
    exact alike_onMem h _

theorem emit_alike (e : ℕ × ContextOp) (h : Alike node node') :
    emit processors nnodes rank e node' = emit processors nnodes rank e node := by
  simp only [emit, alike_findBase h, h.mem, h.mesgq]

theorem admitted_alike (e : ℕ × ContextOp) (h : Alike node node')
    (ha : ContextLog.Admitted processors nnodes rank e node) :
    ContextLog.Admitted processors nnodes rank e node' := by
  refine ⟨ha.1, ?_⟩
  have hcase := ha.2
  simp only [alike_findBase h, h.mesgq, h.reg, sameMoves_qsize (h.moves e.1),
    sameMoves_topSize (h.moves e.1)]
  exact hcase

theorem run_alike {ops : List (ℕ × ContextOp)} (h : Alike node node') {last : Node}
    (hrun : run (exec processors nnodes rank) ops node = some last) :
    (∃ last', run (exec processors nnodes rank) ops node' = some last' ∧ Alike last last') ∧
      logOf processors nnodes rank ops node' = logOf processors nnodes rank ops node ∧
      (Along (exec processors nnodes rank) (ContextLog.Admitted processors nnodes rank) ops node →
        Along (exec processors nnodes rank) (ContextLog.Admitted processors nnodes rank) ops
          node') :=
  run_followed (R := Alike) (fun e _ _ _ h hs => exec_alike e h hs) (fun e _ _ h => emit_alike e h)
    (fun e _ _ h ha => admitted_alike e h ha) h hrun

end Exec

section Logs

variable {processors nnodes rank : ℕ} {start node : Node} {pre post : List (ℕ × ContextOp)}
  {l pid tag payload n : ℕ}

def messageAt (node : Node) (tag payload n : ℕ) : Message :=
  ⟨load node.proc.mem tag node.proc.bsp.messageQueue.sendTagSize, load node.proc.mem payload n⟩

theorem hpsend_alike (hm : Mapped processors nnodes) (hpid : pid < processors)
    (hrank : node.proc.bsp.rank = rank)
    (hcolumn : nodeOf processors nnodes pid = rank ∨ pid < node.proc.bsp.deliveryTable.nprocs)
    {next : Node} (hs : exec processors nnodes rank (l, .send pid tag payload n) node = some next) :
    ∃ next', exec processors nnodes rank (l, .hpsend pid tag payload n) node = some next' ∧
      Alike next next' := by
  have hself : Alike node node :=
    ⟨rfl, rfl, rfl, rfl, rfl, fun _ => rfl, fun _ => ⟨rfl, rfl, rfl⟩⟩
  simp only [exec, mapper_node hm rank hpid, hrank] at hs ⊢
  split at hs
  · cases hs
    rw [if_pos ‹_›]
    exact ⟨_, rfl, alike_onQueue hself _ fun c d hcd => ⟨hcd.buffer, hcd.queue, hcd.bytes⟩⟩
  · rename_i hne
    rw [if_neg hne]
    obtain ⟨bsp, hbsp, rfl⟩ := Option.map_eq_some_iff.mp hs
    obtain ⟨bsp', hbsp'⟩ := remoteSend_defined (hcolumn.resolve_left (Ne.symm hne)) _ _ _ _
    exact ⟨_, congrArg (Option.map _) hbsp', alike_remoteSend hself hbsp hbsp'⟩

theorem hpsend_run (hm : Mapped processors nnodes) (hpid : pid < processors)
    (hnode : run (exec processors nnodes rank) pre start = some node)
    (hrank : node.proc.bsp.rank = rank) (hcolumns : node.proc.bsp.deliveryTable.nprocs = nnodes)
    (hcolumn : nodeOf processors nnodes pid = rank ∨ pid < nnodes) {last : Node}
    (hrun : run (exec processors nnodes rank) (pre ++ (l, .send pid tag payload n) :: post) start =
      some last) :
    (∃ last', run (exec processors nnodes rank) (pre ++ (l, .hpsend pid tag payload n) :: post)
      start = some last' ∧ Alike last last') ∧
    (∃ A B, logOf processors nnodes rank (pre ++ (l, .send pid tag payload n) :: post) start =
        A ++ (l, .send pid (messageAt node tag payload n)) :: B ∧
      logOf processors nnodes rank (pre ++ (l, .hpsend pid tag payload n) :: post) start =
        A ++ (l, .hpsend pid tag payload n (messageAt node tag payload n)) :: B) ∧
    (Along (exec processors nnodes rank) (ContextLog.Admitted processors nnodes rank)
        (pre ++ (l, .send pid tag payload n) :: post) start →
      Along (exec processors nnodes rank) (ContextLog.Admitted processors nnodes rank)
        (pre ++ (l, .hpsend pid tag payload n) :: post) start) := by
  rw [run_append, hnode, Option.bind_some] at hrun
  obtain ⟨next, hnext, hpost⟩ := Option.bind_eq_some_iff.mp hrun
  obtain ⟨next', hnext', halike⟩ := hpsend_alike hm hpid hrank (by rwa [hcolumns]) hnext
  obtain ⟨⟨last', hlast', hsame⟩, hlog, halong⟩ := run_alike halike hpost
  refine ⟨⟨last', ?_, hsame⟩, ⟨logOf processors nnodes rank pre start,
    logOf processors nnodes rank post next, ?_, ?_⟩, fun ha => ?_⟩
  · rw [run_append, hnode, Option.bind_some, run, hnext']
    exact hlast'
  · rw [logOf, trace_append hnode, trace, hnext]
    rfl
  · rw [logOf, trace_append hnode, trace, hnext', ← hlog]
    rfl
  · obtain ⟨hpre, hrest⟩ := along_append.mp ha
    obtain ⟨⟨hlp, -, hsize⟩, hafter⟩ := hrest node hnode
    refine along_append.mpr ⟨hpre, fun t ht => ?_⟩
    cases hnode.symm.trans ht
    refine ⟨⟨hlp, hpid, hsize, hcolumn⟩, fun t ht => ?_⟩
    cases hnext'.symm.trans ht
    exact halong (hafter next hnext)

end Logs

section Messages

variable {processors nnodes q₀ : ℕ} {logs : ℕ → List (ℕ × ContextCall)}
  {A B : List (ℕ × ContextCall)}
  {l pid tag payload n : ℕ} {m : Message}

def sentTo (processors nnodes p q : ℕ) (log : List (ℕ × ContextCall)) : List (ℕ × Message) :=
  log.filterMap fun e => arrival processors nnodes p q e.2

theorem arrivals_sentTo (processors nnodes : ℕ) (logs : ℕ → List (ℕ × ContextCall)) (q : ℕ) :
    arrivals processors nnodes logs q =
      (List.range nnodes).flatMap fun p => sentTo processors nnodes p q (logs p) := rfl

theorem sentTo_split (processors nnodes p q : ℕ) (A B : List (ℕ × ContextCall)) (l : ℕ)
    (c : ContextCall) : sentTo processors nnodes p q (A ++ (l, c) :: B) =
      sentTo processors nnodes p q A ++ (arrival processors nnodes p q c).toList ++
        sentTo processors nnodes p q B := by
  simp only [sentTo, List.filterMap_append, List.filterMap_cons, List.append_assoc]
  cases arrival processors nnodes p q c <;> rfl

theorem arrivals_update (processors : ℕ) (logs : ℕ → List (ℕ × ContextCall))
    (A B : List (ℕ × ContextCall)) (l : ℕ) (hq : q₀ < nnodes) (q : ℕ) : ∃ X Y, ∀ c,
    arrivals processors nnodes (Function.update logs q₀ (A ++ (l, c) :: B)) q =
      X ++ (arrival processors nnodes q₀ q c).toList ++ Y := by
  obtain ⟨xs, ys, hrange⟩ := List.append_of_mem (List.mem_range.mpr hq)
  have hnodup := hrange ▸ List.nodup_range
  rw [List.nodup_middle, List.nodup_cons, List.mem_append, not_or] at hnodup
  obtain ⟨⟨hxs, hys⟩, -⟩ := hnodup
  refine ⟨xs.flatMap (fun p => sentTo processors nnodes p q (logs p)) ++
      sentTo processors nnodes q₀ q A, sentTo processors nnodes q₀ q B ++
      ys.flatMap (fun p => sentTo processors nnodes p q (logs p)), fun c => ?_⟩
  have hother : ∀ zs : List ℕ, q₀ ∉ zs → zs.flatMap (fun p => sentTo processors nnodes p q
      (Function.update logs q₀ (A ++ (l, c) :: B) p)) =
        zs.flatMap fun p => sentTo processors nnodes p q (logs p) := by
    intro zs hzs
    apply List.flatMap_congr
    intro p hp
    have hne : p ≠ q₀ := fun heq => hzs (heq ▸ hp)
    rw [Function.update_of_ne hne]
  rw [arrivals_sentTo, hrange, List.flatMap_append, List.flatMap_cons, hother xs hxs, hother ys hys,
    Function.update_self, sentTo_split]
  simp only [List.append_assoc]

theorem arrivals_same (hq : q₀ < nnodes)
    (hsame : nodeOf processors nnodes pid = q₀ ∨ nodeOf processors nnodes pid = pid) (q : ℕ) :
    arrivals processors nnodes (Function.update logs q₀
        (A ++ (l, .hpsend pid tag payload n m) :: B)) q =
      arrivals processors nnodes (Function.update logs q₀ (A ++ (l, .send pid m) :: B)) q := by
  obtain ⟨X, Y, hXY⟩ := arrivals_update processors logs A B l hq q
  rw [hXY, hXY]
  rcases hsame with hown | hpid
  · simp only [arrival, if_pos hown]
  · simp only [arrival, hpid]

theorem arrivals_lost (hq : q₀ < nnodes) (hown : nodeOf processors nnodes pid ≠ q₀)
    (hpid : nodeOf processors nnodes pid ≠ pid) :
    (forContext (localOf processors nnodes pid) (arrivals processors nnodes (Function.update logs q₀
        (A ++ (l, .send pid m) :: B)) (nodeOf processors nnodes pid))).length =
      (forContext (localOf processors nnodes pid)
        (arrivals processors nnodes (Function.update logs q₀
        (A ++ (l, .hpsend pid tag payload n m) :: B)) (nodeOf processors nnodes pid))).length +
          1 := by
  obtain ⟨X, Y, hXY⟩ := arrivals_update processors logs A B l hq (nodeOf processors nnodes pid)
  rw [hXY, hXY]
  simp only [arrival, if_neg hown, if_true, if_neg (Ne.symm hpid), forContext,
    List.filterMap_append, List.length_append, Option.toList_some, Option.toList_none]
  simp
  omega

theorem resolve_local {rank lp : ℕ} {e : ℕ × ContextCall} {x : LocalMessage} {p₁ p₂ : Proc}
    (hmem : p₁.mem = p₂.mem)
    (htag : p₁.bsp.messageQueue.recvTagSize = p₂.bsp.messageQueue.recvTagSize)
    (hx : localSend processors nnodes rank lp e = some x) : resolve p₁ x = resolve p₂ x := by
  obtain ⟨l, call⟩ := e
  cases call with
  | send pid m =>
    simp only [localSend, Option.ite_none_right_eq_some, Option.some.injEq] at hx
    rw [← hx.2]
    rfl
  | hpsend pid tag payload n m =>
    simp only [localSend, Option.ite_none_right_eq_some, Option.some.injEq] at hx
    rw [← hx.2]
    simp only [resolve, readPointer, hmem, htag]
  | put | get | setTagsize => cases hx

theorem resolve_replaced {rank : ℕ} (l lp : ℕ) (p₁ : Proc) {p₂ : Proc}
    (hkeep : nodeOf processors nnodes pid = rank →
      load p₂.mem tag p₂.bsp.messageQueue.recvTagSize = m.tag ∧ load p₂.mem payload n = m.payload) :
    (localSend processors nnodes rank lp (l, .hpsend pid tag payload n m)).map (resolve p₂) =
      (localSend processors nnodes rank lp (l, .send pid m)).map (resolve p₁) := by
  simp only [localSend]
  by_cases hlocal : nodeOf processors nnodes pid = rank ∧ localOf processors nnodes pid = lp
  · obtain ⟨htag, hpayload⟩ := hkeep hlocal.1
    rw [if_pos hlocal, if_pos hlocal]
    simp only [Option.map_some, resolve, readPointer, htag, hpayload]
  · rw [if_neg hlocal, if_neg hlocal]
    rfl

theorem map_resolve_local {rank lp : ℕ} {p₁ p₂ : Proc} (hmem : p₁.mem = p₂.mem)
    (htag : p₁.bsp.messageQueue.recvTagSize = p₂.bsp.messageQueue.recvTagSize)
    (log : List (ℕ × ContextCall)) :
    (log.filterMap (localSend processors nnodes rank lp)).map (resolve p₁) =
      (log.filterMap (localSend processors nnodes rank lp)).map (resolve p₂) := by
  apply List.map_congr_left
  intro x hx
  obtain ⟨e, -, he⟩ := List.mem_filterMap.mp hx
  exact resolve_local hmem htag he

theorem local_same {p₁ p₂ : Proc} (hmem : p₁.mem = p₂.mem)
    (htag : p₁.bsp.messageQueue.recvTagSize = p₂.bsp.messageQueue.recvTagSize) {q : ℕ}
    (hkeep : nodeOf processors nnodes pid = q₀ → q = q₀ →
      load p₂.mem tag p₂.bsp.messageQueue.recvTagSize = m.tag ∧ load p₂.mem payload n = m.payload)
    (lp : ℕ) :
    ((Function.update logs q₀ (A ++ (l, .hpsend pid tag payload n m) :: B) q).filterMap
        (localSend processors nnodes q lp)).map (resolve p₂) =
      ((Function.update logs q₀ (A ++ (l, .send pid m) :: B) q).filterMap
        (localSend processors nnodes q lp)).map (resolve p₁) := by
  by_cases hq : q = q₀
  · subst hq
    have hone := resolve_replaced l lp p₁ fun hown => hkeep hown rfl
    have hcons : ∀ (c : ContextCall) (p : Proc),
        ((A ++ (l, c) :: B).filterMap (localSend processors nnodes q lp)).map (resolve p) =
          (A.filterMap (localSend processors nnodes q lp)).map (resolve p) ++
            ((localSend processors nnodes q lp (l, c)).map (resolve p)).toList ++
            (B.filterMap (localSend processors nnodes q lp)).map (resolve p) := by
      intro c p
      rw [List.filterMap_append, List.filterMap_cons]
      cases localSend processors nnodes q lp (l, c) <;> simp
    rw [Function.update_self, Function.update_self, hcons, hcons, hone, map_resolve_local hmem htag,
      map_resolve_local hmem htag]
  · rw [Function.update_of_ne hq, Function.update_of_ne hq]
    exact (map_resolve_local hmem htag _).symm

end Messages

section Received

variable {processors nnodes : ℕ}

theorem hpmoveTimes_same {p₁ p₂ : Proc} {c d : LocalDeliveryQueue}
    {moved moved' : List LocalMessage}
    (hc : Pending c [] [] [] moved) (hd : Pending d [] [] [] moved')
    (hread : ∀ m ∈ moved, TagRead p₁ m) (hread' : ∀ m ∈ moved', TagRead p₂ m)
    (hsame : moved'.map (resolve p₂) = moved.map (resolve p₁)) (k : ℕ) :
    hpmoveTimes p₂ k d = hpmoveTimes p₁ k c := by
  induction k generalizing c d moved moved' with
  | zero => rfl
  | succ k ih =>
    cases moved with
    | nil =>
      cases List.map_eq_nil_iff.mp hsame
      rw [hpmoveTimes_empty hd, hpmoveTimes_empty hc]
    | cons m moved =>
      obtain ⟨m', moved', rfl, hm, hrest⟩ := List.map_eq_cons_iff.mp hsame
      obtain ⟨tag, message, hmove, htag, hmessage⟩ := hpmove_pending hc (hread m (by simp))
      obtain ⟨tag', message', hmove', htag', hmessage'⟩ := hpmove_pending hd (hread' m' (by simp))
      have hnbytes : m'.nbytes = m.nbytes := by
        rw [← resolve_nbytes p₂, ← resolve_nbytes p₁, hm]
      rw [hnbytes] at hmove' hmessage'
      rw [hpmoveTimes, hpmoveTimes, hmove, hmove', ih (pending_advance hc) (pending_advance hd)
        (fun x hx => hread x (List.mem_cons_of_mem _ hx))
        (fun x hx => hread' x (List.mem_cons_of_mem _ hx)) hrest]
      simp only [Option.map_some, htag, hmessage, htag', hmessage', hm]

structure SameReceived (processors nnodes : ℕ) (keeps : Mem → Prop) (w w' : ℕ → Node)
    (g : ℕ) : Prop where
  qsize : bspQsize (contextAt processors nnodes w' g).localDeliveries =
    bspQsize (contextAt processors nnodes w g).localDeliveries
  drained : ∀ mem, keeps mem → ∀ k,
    hpmoveTimes { (w' (nodeOf processors nnodes g)).proc with mem := mem } k
        (contextAt processors nnodes w' g).localDeliveries =
      hpmoveTimes { (w (nodeOf processors nnodes g)).proc with mem := mem } k
        (contextAt processors nnodes w g).localDeliveries

variable {tagSize : ℕ → ℕ} {logs : ℕ → List (ℕ × ContextCall)} {v w : ℕ → Node} {q lp g : ℕ}

theorem synced_queue (hm : Mapped processors nnodes)
    (hsound : ∀ p < nnodes, ∀ c ∈ logs p, Sound processors nnodes p (tagSize p) c)
    (hs : SameTags processors nnodes tagSize) (hg : g < processors)
    (h : NodeSynced processors nnodes tagSize logs v (nodeOf processors nnodes g)
      (w (nodeOf processors nnodes g))) : ∃ moved,
    Pending (contextAt processors nnodes w g).localDeliveries [] [] [] moved ∧
    ∀ mem, (∀ m ∈ moved, TagRead { (w (nodeOf processors nnodes g)).proc with mem := mem } m) ∧
      moved.map (resolve { (w (nodeOf processors nnodes g)).proc with mem := mem }) =
        ((logs (nodeOf processors nnodes g)).filterMap (localSend processors nnodes
          (nodeOf processors nnodes g) (localOf processors nnodes g))).map
            (resolve { (w (nodeOf processors nnodes g)).proc with mem := mem }) ++
          forContext (localOf processors nnodes g)
            (arrivals processors nnodes logs (nodeOf processors nnodes g)) := by
  have hq := nodeOf_lt hm hg
  have hlp := localOf_lt hm hg
  obtain ⟨new, hpend, hnew⟩ := h.queues _ hlp
  refine ⟨_, hpend, fun mem => ⟨fun m hmem => ?_, ?_⟩⟩
  · cases m with
    | pointed => trivial
    | copied m =>
      show m.tag.length = (w (nodeOf processors nnodes g)).proc.bsp.messageQueue.recvTagSize
      rw [h.recvTagSize]
      rcases List.mem_append.mp hmem with hown | hother
      · obtain ⟨⟨l, call⟩, he, hcall⟩ := List.mem_filterMap.mp hown
        cases call with
        | send pid x =>
          simp only [localSend, Option.ite_none_right_eq_some, Option.some.injEq,
            LocalMessage.copied.injEq] at hcall
          rw [← hcall.2]
          exact (hsound _ hq _ he).2.2
        | hpsend pid tag payload n x =>
          simp only [localSend, Option.ite_none_right_eq_some, Option.some.injEq, reduceCtorEq,
            and_false] at hcall
        | put | get | setTagsize => cases hcall
      · have hin := List.mem_map_of_mem (f := resolve { (w (nodeOf processors nnodes g)).proc with
          mem := mem }) hother
        rw [hnew mem] at hin
        obtain ⟨e, he, heq⟩ := List.mem_filterMap.mp hin
        rw [Option.ite_none_right_eq_some, Option.some.injEq] at heq
        have hfit := tagsFit hs hsound hq e he (Nat.zero_lt_of_lt hlp)
        rw [heq.2] at hfit
        exact hfit
  · rw [List.map_append, hnew mem]

theorem synced_count (hm : Mapped processors nnodes) (hg : g < processors)
    (h : NodeSynced processors nnodes tagSize logs v (nodeOf processors nnodes g)
      (w (nodeOf processors nnodes g))) :
    (bspQsize (contextAt processors nnodes w g).localDeliveries).1 =
      ((logs (nodeOf processors nnodes g)).filterMap (localSend processors nnodes
        (nodeOf processors nnodes g) (localOf processors nnodes g))).length +
      (forContext (localOf processors nnodes g)
        (arrivals processors nnodes logs (nodeOf processors nnodes g))).length := by
  obtain ⟨new, hpend, hnew⟩ := h.queues _ (localOf_lt hm hg)
  have hsize : (contextAt processors nnodes w g).localDeliveries.bsmpQsize = _ :=
    mailbox_qsize hpend.moved
  rw [bspQsize, hsize, List.length_append, ← hnew (fun _ => 0), List.length_map]

end Received

section Superstep

/-- On node `q₀` context `l` calls `bsp_hpsend` between the operations `pre` and `post`. -/
def withHpsend (ops : ℕ → List (ℕ × ContextOp)) (q₀ : ℕ) (pre post : List (ℕ × ContextOp))
    (l pid tag payload n : ℕ) : ℕ → List (ℕ × ContextOp) :=
  Function.update ops q₀ (pre ++ (l, .hpsend pid tag payload n) :: post)

/-- Tag and payload are as they were in `node`, where the message was sent. -/
def Keeps (node : Node) (tag payload n : ℕ) (mem : Mem) : Prop :=
  load mem tag node.proc.bsp.messageQueue.sendTagSize =
      load node.proc.mem tag node.proc.bsp.messageQueue.sendTagSize ∧
    load mem payload n = load node.proc.mem payload n

variable {processors nnodes : ℕ} {tagSize : ℕ → ℕ} {w w₁ : ℕ → Node} {q₀ : ℕ}
  {ops : ℕ → List (ℕ × ContextOp)} {pre post : List (ℕ × ContextOp)} {l pid tag payload n : ℕ}
  {node : Node} {fresh : ℕ → ℕ → RegReq}

variable (hm : Mapped processors nnodes) (hp : processors ≤ 2 ^ 31)
  (hr : Reachable processors nnodes tagSize w) (hq : q₀ < nnodes)
  (hops : ops q₀ = pre ++ (l, .send pid tag payload n) :: post)
  (ha : Admissible processors nnodes ops w)
  (hnode : run (exec processors nnodes q₀) pre (w q₀) = some node)

include hm hp hr hq hops ha hnode

theorem call_logged : pid < processors ∧ ∃ log,
    NodeLogged processors nnodes q₀ (tagSize q₀) log node := by
  have halong := ha.admitted q₀ hq
  rw [hops, along_append] at halong
  obtain ⟨hpre, hrest⟩ := halong
  obtain ⟨node', hnode', hlog⟩ := run_exec hm hpre ((reachable_ready hm hp hr).1.logged q₀ hq)
  cases hnode.symm.trans hnode'
  exact ⟨(hrest node hnode).1.2.1, _, hlog⟩

theorem replaced_phase (hcolumn : nodeOf processors nnodes pid = q₀ ∨ pid < nnodes) {v : ℕ → Node}
    (hv : localPhase processors nnodes ops w = some v) :
    let ops' := withHpsend ops q₀ pre post l pid tag payload n
    Admissible processors nnodes ops' w ∧
    (∃ v', localPhase processors nnodes ops' w = some v' ∧
      regsOf processors nnodes v' = regsOf processors nnodes v) ∧
    ∃ logs A B, logsAt processors nnodes ops w =
        Function.update logs q₀ (A ++ (l, .send pid (messageAt node tag payload n)) :: B) ∧
      logsAt processors nnodes ops' w = Function.update logs q₀
        (A ++ (l, .hpsend pid tag payload n (messageAt node tag payload n)) :: B) := by
  intro ops'
  obtain ⟨hpid, log, hlog⟩ := call_logged hm hp hr hq hops ha hnode
  have hself : ops' q₀ = pre ++ (l, .hpsend pid tag payload n) :: post := Function.update_self ..
  have hother : ∀ q, q ≠ q₀ → ops' q = ops q := fun q hne => Function.update_of_ne hne ..
  have hvq := (allBelow_eq_some hv).1
  have hrun := hvq q₀ hq
  rw [hops] at hrun
  obtain ⟨⟨last, hlast, halike⟩, ⟨A, B, hA, hB⟩, halong⟩ :=
    hpsend_run (l := l) hm hpid hnode hlog.proc.rank hlog.proc.deliv_nprocs hcolumn hrun
  have hadmitted : ∀ q < nnodes,
      Along (exec processors nnodes q) (ContextLog.Admitted processors nnodes q) (ops' q)
        (w q) := by
    intro q hqn
    by_cases hne : q = q₀
    · subst hne
      rw [hself]
      have hown := ha.admitted q hqn
      rw [hops] at hown
      exact halong hown
    · rw [hother q hne]
      exact ha.admitted q hqn
  have htags : ∀ q lp, tagCalls lp (ops' q) = tagCalls lp (ops q) := by
    intro q lp
    by_cases hne : q = q₀
    · subst hne
      rw [hself, hops]
      simp [tagCalls]
    · rw [hother q hne]
  obtain ⟨v', hv', -, hrun'⟩ := localPhase_spec (reachable_ready hm hp hr).1 hadmitted
  refine ⟨⟨hadmitted, ?_⟩, ⟨v', hv', ?_⟩, logsAt processors nnodes ops w, A, B, ?_, ?_⟩
  · obtain ⟨sizes, hsizes⟩ := ha.tags
    exact ⟨sizes, fun q hqn lp hlp => (htags q lp).trans (hsizes q hqn lp hlp)⟩
  · funext g
    have hreg : ∀ q lp, ((v' q).contexts lp).reg = ((v q).contexts lp).reg := by
      intro q lp
      by_cases hqn : q < nnodes
      · have hq' := (hrun' q hqn).1
        by_cases hne : q = q₀
        · subst hne
          rw [hself, hlast] at hq'
          cases hq'
          exact halike.reg lp
        · rw [hother q hne, hvq q hqn, Option.some.injEq] at hq'
          rw [hq']
      · rw [(allBelow_eq_some hv').2 q (by omega), (allBelow_eq_some hv).2 q (by omega)]
    exact hreg _ _
  · rw [← hA, ← hops]
    exact (Function.update_eq_self ..).symm
  · funext q
    by_cases hne : q = q₀
    · subst hne
      rw [Function.update_self, logsAt, hself]
      exact hB
    · rw [Function.update_of_ne hne, logsAt, hother q hne]
      rfl

theorem hpsend_same (hs : superstep processors nnodes fresh ops w = some w₁)
    (hsame : nodeOf processors nnodes pid = q₀ ∨ nodeOf processors nnodes pid = pid) :
    ∃ w₂, superstep processors nnodes fresh (withHpsend ops q₀ pre post l pid tag payload n)
      w = some w₂ ∧ ∀ g < processors, SameReceived processors nnodes
        (fun mem => nodeOf processors nnodes g = q₀ → Keeps node tag payload n mem) w₁ w₂ g := by
  obtain ⟨hready, htags⟩ := reachable_ready hm hp hr
  obtain ⟨hpid, log, hlog⟩ := call_logged hm hp hr hq hops ha hnode
  obtain ⟨v, hv, hsync, htargets, hsynced⟩ := superstep_synced hp hready htags ha hs
  have hcolumn : nodeOf processors nnodes pid = q₀ ∨ pid < nnodes :=
    hsame.imp_right fun h => h.symm.trans_lt (nodeOf_lt hm hpid)
  obtain ⟨ha', ⟨v', hv', hregs'⟩, logs, A, B, hlogs, hlogs'⟩ :=
    replaced_phase hm hp hr hq hops ha hnode hcolumn hv
  obtain ⟨u, hu, hready', hrun'⟩ := localPhase_spec hready ha'.admitted
  cases hv'.symm.trans hu
  obtain ⟨u, hu, -, hrun⟩ := localPhase_spec hready ha.admitted
  cases hv.symm.trans hu
  have hsound := fun (p : ℕ) (hp : p < nnodes) => (hrun p hp).2
  have hsound' := fun (p : ℕ) (hp : p < nnodes) => (hrun' p hp).2
  have harrivals : ∀ q, arrivals processors nnodes (logsAt processors nnodes
      (withHpsend ops q₀ pre post l pid tag payload n) w) q =
        arrivals processors nnodes (logsAt processors nnodes ops w) q := by
    intro q
    rw [hlogs', hlogs, arrivals_same hq hsame]
  obtain ⟨regs, hregs, -⟩ := Option.bind_eq_some_iff.mp hsync
  rw [← hregs'] at hregs
  obtain ⟨w₂, hw₂, hsynced'⟩ := bspSync_spec hready' hp (fun q hq => tagsFit htags hsound' hq)
    (fun q hq e he => htargets q hq e (harrivals q ▸ he)) hregs
  refine ⟨w₂, by rw [superstep, hv']; exact hw₂, fun g hg => ?_⟩
  have hgq := nodeOf_lt hm hg
  obtain ⟨moved, hpend, hmoved⟩ := synced_queue hm hsound htags hg (hsynced _ hgq)
  obtain ⟨moved', hpend', hmoved'⟩ := synced_queue hm hsound' htags hg (hsynced' _ hgq).1
  have hrecv := (hsynced _ hgq).recvTagSize
  have hrecv' := (hsynced' _ hgq).1.recvTagSize
  have hequal : ∀ mem, (nodeOf processors nnodes g = q₀ → Keeps node tag payload n mem) →
      moved'.map (resolve { (w₂ (nodeOf processors nnodes g)).proc with mem := mem }) =
        moved.map (resolve { (w₁ (nodeOf processors nnodes g)).proc with mem := mem }) := by
    intro mem hkeep
    rw [(hmoved mem).2, (hmoved' mem).2, harrivals, hlogs', hlogs]
    congr 1
    let p₁ : Proc := { (w₁ (nodeOf processors nnodes g)).proc with mem := mem }
    let p₂ : Proc := { (w₂ (nodeOf processors nnodes g)).proc with mem := mem }
    have hmem : p₁.mem = p₂.mem := rfl
    refine local_same hmem (hrecv.trans hrecv'.symm) (fun _ hown => ?_) _
    obtain ⟨htag, hpayload⟩ := hkeep hown
    have hsize : node.proc.bsp.messageQueue.sendTagSize = tagSize q₀ := hlog.proc.tagSize
    refine ⟨?_, hpayload⟩
    show load mem tag (w₂ (nodeOf processors nnodes g)).proc.bsp.messageQueue.recvTagSize = _
    rw [hrecv', hown, ← hsize]
    exact htag
  refine ⟨?_, fun mem hkeep k => ?_⟩
  · rw [pending_bspQsize hpend'
      { (w₂ (nodeOf processors nnodes g)).proc with mem := node.proc.mem },
      pending_bspQsize hpend { (w₁ (nodeOf processors nnodes g)).proc with mem := node.proc.mem },
      hequal node.proc.mem fun _ => ⟨rfl, rfl⟩]
  · exact hpmoveTimes_same hpend hpend' (hmoved mem).1 (hmoved' mem).1 (hequal mem hkeep) k

theorem hpsend_lost (hs : superstep processors nnodes fresh ops w = some w₁)
    (hown : nodeOf processors nnodes pid ≠ q₀) (hother : nodeOf processors nnodes pid ≠ pid)
    (hcolumn : pid < nnodes) {w₂ : ℕ → Node}
    (hs' : superstep processors nnodes fresh (withHpsend ops q₀ pre post l pid tag payload n)
      w = some w₂) :
    (bspQsize (contextAt processors nnodes w₁ pid).localDeliveries).1 =
      (bspQsize (contextAt processors nnodes w₂ pid).localDeliveries).1 + 1 := by
  obtain ⟨hready, htags⟩ := reachable_ready hm hp hr
  obtain ⟨hpid, -⟩ := call_logged hm hp hr hq hops ha hnode
  obtain ⟨v, hv, -, -, hsynced⟩ := superstep_synced hp hready htags ha hs
  obtain ⟨ha', -, logs, A, B, hlogs, hlogs'⟩ :=
    replaced_phase hm hp hr hq hops ha hnode (.inr hcolumn) hv
  obtain ⟨v', -, -, -, hsynced'⟩ := superstep_synced hp hready htags ha' hs'
  have hpq := nodeOf_lt hm hpid
  rw [synced_count hm hpid (hsynced _ hpq), synced_count hm hpid (hsynced' _ hpq), hlogs', hlogs,
    arrivals_lost hq hown hother, Function.update_of_ne hown, Function.update_of_ne hown,
      Nat.add_assoc]

/-- A `bsp_send` can be replaced by `bsp_hpsend` if the target is on the own node or has the
number of its node as its global pid, and only then. -/
theorem hpsend_delivers_iff (hs : superstep processors nnodes fresh ops w = some w₁) :
    ((nodeOf processors nnodes pid ≠ q₀ → pid < nnodes) ∧
      ∃ w₂, superstep processors nnodes fresh (withHpsend ops q₀ pre post l pid tag payload n) w =
          some w₂ ∧
        ∀ g < processors, SameReceived processors nnodes
          (fun mem => nodeOf processors nnodes g = q₀ → Keeps node tag payload n mem) w₁ w₂ g) ↔
      nodeOf processors nnodes pid = q₀ ∨ nodeOf processors nnodes pid = pid := by
  obtain ⟨hpid, -⟩ := call_logged hm hp hr hq hops ha hnode
  constructor
  · rintro ⟨hcolumn, w₂, hs', hsame⟩
    by_contra hne
    rw [not_or] at hne
    have hlost := hpsend_lost hm hp hr hq hops ha hnode hs hne.1 hne.2 (hcolumn hne.1) hs'
    rw [(hsame pid hpid).qsize] at hlost
    omega
  · intro hsame
    refine ⟨fun hne => ?_, hpsend_same hm hp hr hq hops ha hnode hs hsame⟩
    rw [← hsame.resolve_left hne]
    exact nodeOf_lt hm hpid

end Superstep

section Sample

def sampleOps (op : ContextOp) (q : ℕ) : List (ℕ × ContextOp) := if q = 1 then [(0, op)] else []

def sampleWorld : ℕ → Node := fun q => initNode 4 2 sampleStart q

theorem sample_mapped : Mapped 4 2 := ⟨by decide, by decide⟩

theorem sample_static {op : ContextOp}
    (hop : Static 4 2 1 0 (fun lp => ((sampleWorld 1).contexts lp).reg)
    (0, op)) (hnone : ¬ Registers op) (htag : ∀ lp, tagCalls lp [(0, op)] = []) :
    Admissible 4 2 (sampleOps op) sampleWorld ∧ ∀ q < 2, ∀ e ∈ sampleOps op q, ¬ Registers e.2 := by
  have hready := init_ready 4 2 sample_mapped fun _ => sampleStart
  refine ⟨⟨fun q hq => ?_, [], fun q _ lp _ => ?_⟩, fun q _ e he => ?_⟩
  · apply along_static sample_mapped (hready.logged q hq) (fun _ => rfl)
    intro e he
    rw [sampleOps] at he
    split at he
    · rename_i hone
      subst hone
      cases List.mem_singleton.mp he
      exact hop
    · cases he
  · rw [sampleOps]
    split
    · exact htag lp
    · rfl
  · rw [sampleOps] at he
    split at he
    · cases List.mem_singleton.mp he
      exact hnone
    · cases he

theorem sample_logs (op : ContextOp) : logsAt 4 2 (sampleOps op) sampleWorld =
    fun q => if q = 1 then emit 4 2 1 (0, op) (sampleWorld 1) else [] := by
  funext q
  rw [logsAt, sampleOps, logOf]
  by_cases hq : q = 1
  · subst hq
    rw [if_pos rfl, if_pos rfl, trace_singleton]
  · rw [if_neg hq, if_neg hq]
    rfl

theorem sample_superstep {op : ContextOp}
    (hop : Static 4 2 1 0 (fun lp => ((sampleWorld 1).contexts lp).reg) (0, op))
    (hnone : ¬ Registers op) (htag : ∀ lp, tagCalls lp [(0, op)] = [])
    (htargets : ∀ q < 2, TargetsExist 4 2 (logsAt 4 2 (sampleOps op) sampleWorld) q)
    (fresh : ℕ → ℕ → RegReq) :
    ∃ v w', superstep 4 2 fresh (sampleOps op) sampleWorld = some w' ∧
      ∀ q < 2, NodeSynced 4 2 (fun _ => 0) (logsAt 4 2 (sampleOps op) sampleWorld) v q (w' q) := by
  have hr : Reachable 4 2 (fun _ => 0) sampleWorld := .init fun _ => sampleStart
  obtain ⟨ha, hregs⟩ := sample_static hop hnone htag
  obtain ⟨hready, htags⟩ := reachable_ready sample_mapped (by decide) hr
  obtain ⟨v, hv, hready', hrun⟩ := localPhase_spec hready ha.admitted
  obtain ⟨w', hw', hsynced⟩ := bspSync_spec hready' (by decide)
    (fun q hq => tagsFit htags (fun p hp => (hrun p hp).2) hq) htargets
    (no_registrations sample_mapped hregs hv (ContextLive.skips_empty sample_mapped fun _ _ => rfl)
      fresh)
  exact ⟨v, w', by rw [superstep, hv]; exact hw', fun q hq => (hsynced q hq).1⟩

theorem send_static : Static 4 2 1 0 (fun lp => ((sampleWorld 1).contexts lp).reg)
    (0, .send 1 0 40 2) :=
  ⟨by decide, by decide, by decide⟩

theorem send_targets : ∀ q < 2,
    TargetsExist 4 2 (logsAt 4 2 (sampleOps (.send 1 0 40 2)) sampleWorld) q := by
  rw [sample_logs]
  decide

/-- The message for context 1 goes to context 3. -/
theorem hpsend_misdelivers : ∃ w₁ w₂,
    superstep 4 2 (fun _ _ => ⟨0, 0, 0, false⟩) (sampleOps (.send 1 0 40 2)) sampleWorld = some w₁ ∧
    superstep 4 2 (fun _ _ => ⟨0, 0, 0, false⟩) (sampleOps (.hpsend 1 0 40 2)) sampleWorld =
      some w₂ ∧
    (bspQsize (contextAt 4 2 w₁ 1).localDeliveries).1 = 1 ∧
    (bspQsize (contextAt 4 2 w₂ 1).localDeliveries).1 = 0 ∧
    (bspQsize (contextAt 4 2 w₂ 3).localDeliveries).1 = 1 := by
  obtain ⟨v₁, w₁, hs₁, h₁⟩ := sample_superstep send_static id (fun _ => rfl) send_targets
    fun _ _ => ⟨0, 0, 0, false⟩
  have htargets : ∀ q < 2,
      TargetsExist 4 2 (logsAt 4 2 (sampleOps (.hpsend 1 0 40 2)) sampleWorld) q := by
    rw [sample_logs]
    decide
  have hstatic : Static 4 2 1 0 (fun lp => ((sampleWorld 1).contexts lp).reg)
      (0, .hpsend 1 0 40 2) :=
    ⟨by decide, by decide, by decide, by decide⟩
  obtain ⟨v₂, w₂, hs₂, h₂⟩ := sample_superstep hstatic id (fun _ => rfl) htargets
    fun _ _ => ⟨0, 0, 0, false⟩
  refine ⟨w₁, w₂, hs₁, hs₂, ?_, ?_, ?_⟩
  · rw [synced_count sample_mapped (by decide) (h₁ _ (by decide)), sample_logs]
    rfl
  · rw [synced_count sample_mapped (by decide) (h₂ _ (by decide)), sample_logs]
    rfl
  · rw [synced_count sample_mapped (by decide) (h₂ _ (by decide)), sample_logs]
    rfl

theorem hpsend_delivers_iff_four : ∃ w₁,
    superstep 4 2 (fun _ _ => ⟨0, 0, 0, false⟩) (sampleOps (.send 1 0 40 2)) sampleWorld = some w₁ ∧
    (((nodeOf 4 2 1 ≠ 1 → 1 < 2) ∧ ∃ w₂, superstep 4 2 (fun _ _ => ⟨0, 0, 0, false⟩)
        (withHpsend (sampleOps (.send 1 0 40 2)) 1 [] [] 0 1 0 40 2) sampleWorld = some w₂ ∧
        ∀ g < 4, SameReceived 4 2
          (fun mem => nodeOf 4 2 g = 1 → Keeps (sampleWorld 1) 0 40 2 mem) w₁ w₂ g) ↔
      nodeOf 4 2 1 = 1 ∨ nodeOf 4 2 1 = 1) := by
  obtain ⟨-, w₁, hs, -⟩ := sample_superstep send_static id (fun _ => rfl) send_targets
    fun _ _ => ⟨0, 0, 0, false⟩
  exact ⟨w₁, hs, hpsend_delivers_iff sample_mapped (by decide) (.init fun _ => sampleStart)
    (by decide) rfl
    (sample_static send_static id fun _ => rfl).1 rfl hs⟩

end Sample

end BspOnMpi.ContextHpsend
