import BspOnMpi.ContextLive

/-! Which registrations a node accepts. `process_memoryreg_ops` throws on a node when two requests
of a position differ or when one of its own contexts cannot follow a request. Here the queues are
arbitrary, and every context holds live registrations of its own. -/

namespace BspOnMpi.ContextAccept
open Lib Exptable Memreg Mapper ContextMemreg ContextLive

section Compare

variable {processors : ℕ} {requests : ℕ → RegReq}

def Precedes (value new : ℕ) : Prop := value = noValue ∨ value = new

structure Continues (st : Check) (r : RegReq) : Prop where
  serial : Precedes st.serial r.serial
  size : Precedes st.size r.size
  kind : ∀ push, st.pushOrPop = some push → push = r.push

def seen (r : RegReq) : Check := { serial := r.serial, size := r.size, pushOrPop := some r.push }

/-- The requests that a node with `n` contexts accepts at a position: they agree, but with one
context a size or serial may follow on none. With more contexts the comparison is repeated, and
the first value follows on the last. -/
def Matches (processors n : ℕ) (requests : ℕ → RegReq) : Prop :=
  ∀ i < processors, ∀ j < processors, i < j ∨ 1 < n → Continues (seen (requests i)) (requests j)

theorem matchValue_iff {value new r : ℕ} :
    matchValue value new = some r ↔ Precedes value new ∧ r = new := by
  constructor
  · intro h
    obtain ⟨hr, hseen⟩ := matchValue_eq h
    exact ⟨hseen, hr⟩
  · rintro ⟨hnone | rfl, rfl⟩
    · rw [hnone, matchValue_start]
    · exact matchValue_self _

theorem matchKind_iff {pushOrPop : Option Bool} {push kind : Bool} :
    matchKind pushOrPop push = some kind ↔
      (∀ b, pushOrPop = some b → b = push) ∧ kind = push := by
  constructor
  · intro h
    obtain ⟨hkind, hsame⟩ := matchKind_eq h
    exact ⟨hsame, hkind⟩
  · rintro ⟨hsame, rfl⟩
    cases pushOrPop with
    | none => rfl
    | some b =>
      rw [hsame b rfl]
      exact if_pos rfl

theorem checkRequest_iff {r : RegReq} {st st' : Check} :
    checkRequest r st = some st' ↔ Continues st r ∧ st' = seen r := by
  constructor
  · intro h
    obtain ⟨serial, hserial, h⟩ := Option.bind_eq_some_iff.mp h
    obtain ⟨size, hsize, h⟩ := Option.bind_eq_some_iff.mp h
    obtain ⟨kind, hkind, h⟩ := Option.bind_eq_some_iff.mp h
    obtain ⟨h1, rfl⟩ := matchValue_iff.mp hserial
    obtain ⟨h2, rfl⟩ := matchValue_iff.mp hsize
    obtain ⟨h3, rfl⟩ := matchKind_iff.mp hkind
    cases h
    exact ⟨⟨h1, h2, h3⟩, rfl⟩
  · rintro ⟨⟨h1, h2, h3⟩, rfl⟩
    simp [checkRequest, matchValue_iff.mpr ⟨h1, rfl⟩, matchValue_iff.mpr ⟨h2, rfl⟩,
      matchKind_iff.mpr ⟨h3, rfl⟩, seen]

theorem precedes_trans {a b c : ℕ} (hab : Precedes a b) (hbc : Precedes b c) : Precedes a c := by
  rcases hab with h | rfl
  · exact .inl h
  · exact hbc

theorem continues_trans {st : Check} {r r' : RegReq} (h : Continues st r)
    (h' : Continues (seen r) r') :
    Continues st r' :=
  ⟨precedes_trans h.serial h'.serial, precedes_trans h.size h'.size,
    fun push hpush => (h.kind push hpush).trans (h'.kind r.push rfl)⟩

theorem continues_self (r : RegReq) : Continues (seen r) r :=
  ⟨.inr rfl, .inr rfl, fun _ hpush => (Option.some.inj hpush).symm⟩

theorem continues_start (r : RegReq) : Continues checkStart r :=
  ⟨.inl rfl, .inl rfl, fun _ hpush => by cases hpush⟩

def seenBelow (requests : ℕ → RegReq) (st : Check) : ℕ → Check
  | 0 => st
  | k + 1 => seen (requests k)

theorem check_iff {st st' : Check} {k : ℕ} :
    run (fun gp => checkRequest (requests gp)) (List.range k) st = some st' ↔
      (∀ j < k, Continues st (requests j)) ∧
      (∀ j < k, ∀ i < j, Continues (seen (requests i)) (requests j)) ∧
      st' = seenBelow requests st k := by
  induction k generalizing st' with
  | zero => simp [run, seenBelow, eq_comm]
  | succ k ih =>
    rw [List.range_succ, run_append]
    constructor
    · intro h
      obtain ⟨mid, hmid, hlast⟩ := Option.bind_eq_some_iff.mp h
      simp only [run, Option.bind_fun_some, checkRequest_iff] at hlast
      obtain ⟨hstart, hpairs, rfl⟩ := ih.mp hmid
      obtain ⟨hnext, rfl⟩ := hlast
      -- the last request follows on the one before it, and so on all of them
      have hpair : ∀ i < k, Continues (seen (requests i)) (requests k) := by
        intro i hi
        cases k with
        | zero => exact absurd hi (Nat.not_lt_zero i)
        | succ k =>
          rcases Nat.lt_or_eq_of_le (Nat.le_of_lt_succ hi) with hlt | rfl
          · exact continues_trans (hpairs k (Nat.lt_succ_self k) i hlt) hnext
          · exact hnext
      have hfirst : Continues st (requests k) := by
        cases k with
        | zero => exact hnext
        | succ k => exact continues_trans (hstart k (Nat.lt_succ_self k)) hnext
      refine ⟨fun j hj => ?_, fun j hj i hi => ?_, rfl⟩
      · rcases Nat.lt_or_eq_of_le (Nat.le_of_lt_succ hj) with hlt | rfl
        · exact hstart j hlt
        · exact hfirst
      · rcases Nat.lt_or_eq_of_le (Nat.le_of_lt_succ hj) with hlt | rfl
        · exact hpairs j hlt i hi
        · exact hpair i hi
    · rintro ⟨hstart, hpairs, rfl⟩
      rw [ih.mpr ⟨fun j hj => hstart j (by omega), fun j hj => hpairs j (by omega), rfl⟩,
        Option.bind_some]
      simp only [run, Option.bind_fun_some, checkRequest_iff, seenBelow, and_true]
      cases k with
      | zero => exact hstart 0 Nat.one_pos
      | succ k => exact hpairs (k + 1) (by omega) k (by omega)

theorem matches_once {n : ℕ} (h : Matches processors n requests) : Matches processors 1 requests :=
  fun i hi j hj hij => h i hi j hj (.inl (hij.resolve_right (lt_irrefl 1)))

theorem check_first (hpos : 0 < processors) {st : Check} :
    run (fun gp => checkRequest (requests gp)) (List.range processors) checkStart = some st ↔
      Matches processors 1 requests ∧ st = seen (requests (processors - 1)) := by
  obtain ⟨k, rfl⟩ : ∃ k, processors = k + 1 := ⟨processors - 1, by omega⟩
  rw [check_iff]
  constructor
  · rintro ⟨-, hpairs, rfl⟩
    exact ⟨fun i _ j hj hij => hpairs j hj i (hij.resolve_right (lt_irrefl 1)), rfl⟩
  · rintro ⟨hmatches, rfl⟩
    exact ⟨fun j _ => continues_start _, fun j hj i hi => hmatches i (hi.trans hj) j hj (.inl hi),
      rfl⟩

theorem check_again (hpos : 0 < processors) (hfirst : Matches processors 1 requests) {st : Check} :
    run (fun gp => checkRequest (requests gp)) (List.range processors)
        (seen (requests (processors - 1))) = some st ↔
      Matches processors 2 requests ∧ st = seen (requests (processors - 1)) := by
  obtain ⟨k, rfl⟩ : ∃ k, processors = k + 1 := ⟨processors - 1, by omega⟩
  rw [check_iff, Nat.add_sub_cancel]
  constructor
  · rintro ⟨hstart, -, rfl⟩
    refine ⟨fun i hi j hj _ => ?_, rfl⟩
    have hlast : Continues (seen (requests i)) (requests k) := by
      rcases Nat.lt_or_eq_of_le (Nat.le_of_lt_succ hi) with hlt | rfl
      · exact hfirst i hi k (Nat.lt_succ_self k) (.inl hlt)
      · exact continues_self _
    exact continues_trans hlast (hstart j hj)
  · rintro ⟨hmatches, rfl⟩
    exact ⟨fun j hj => hmatches k (Nat.lt_succ_self k) j hj (.inr Nat.one_lt_two),
      fun j hj i hi => hmatches i (hi.trans hj) j hj (.inl hi), rfl⟩

theorem matches_many {m n : ℕ} (hm : 1 < m) (h : Matches processors m requests) :
    Matches processors n requests :=
  fun i hi j hj _ => h i hi j hj (.inr hm)

theorem uniform_matches {n size serial : ℕ} {push : Bool}
    (h : Uniform processors requests push size serial) : Matches processors n requests := by
  intro i hi j hj _
  obtain ⟨h1, h2, h3⟩ := h i hi
  obtain ⟨h4, h5, h6⟩ := h j hj
  exact ⟨.inr (h3.trans h6.symm), .inr (h2.trans h5.symm),
    fun _ hpush => (Option.some.inj hpush).symm.trans (h1.trans h4.symm)⟩

def lastCheck (processors : ℕ) (requests : ℕ → RegReq) : ℕ → Check
  | 0 => checkStart
  | _ + 1 => seen (requests (processors - 1))

theorem check_next (hpos : 0 < processors) {n : ℕ} (h : 0 < n → Matches processors n requests)
    {st : Check} :
    run (fun gp => checkRequest (requests gp)) (List.range processors)
        (lastCheck processors requests n) = some st ↔
      Matches processors (n + 1) requests ∧ st = lastCheck processors requests (n + 1) := by
  cases n with
  | zero => exact check_first hpos
  | succ n =>
    rw [lastCheck, check_again hpos (matches_once (h (Nat.succ_pos n))), lastCheck]
    exact and_congr_left fun _ => ⟨matches_many Nat.one_lt_two, matches_many (by omega)⟩

end Compare

section Position

variable {processors : ℕ} {requests myR : ℕ → RegReq} {cs cs' : ℕ → ContextReg}

theorem processContext_iff {llp : ℕ} {st st' : Check × (ℕ → ContextReg)} :
    processContext processors requests myR llp st = some st' ↔ ∃ check c,
      run (fun gp => checkRequest (requests gp)) (List.range processors) st.1 = some check ∧
      applyRequest processors (st.2 llp) check requests (myR (st.2 llp).localPid).data = some c ∧
      st' = (check, Function.update st.2 llp c) := by
  constructor
  · intro h
    obtain ⟨check, hcheck, h⟩ := Option.bind_eq_some_iff.mp h
    obtain ⟨c, hc, h⟩ := Option.bind_eq_some_iff.mp h
    cases h
    exact ⟨check, c, hcheck, hc, rfl⟩
  · rintro ⟨check, c, hcheck, hc, rfl⟩
    simp [processContext, hcheck, hc]

def Applied (processors : ℕ) (requests myR : ℕ → RegReq) (cs cs' : ℕ → ContextReg) (lp : ℕ) :
    Prop :=
  applyRequest processors (cs lp) (seen (requests (processors - 1))) requests
    (myR (cs lp).localPid).data = some (cs' lp)

theorem contexts_run (hpos : 0 < processors) {n : ℕ} {st : Check} :
    run (processContext processors requests myR) (List.range n) (checkStart, cs) = some (st, cs') ↔
      (0 < n → Matches processors n requests) ∧ st = lastCheck processors requests n ∧
      (∀ lp < n, Applied processors requests myR cs cs' lp) ∧ ∀ lp, n ≤ lp → cs' lp = cs lp := by
  induction n generalizing st cs' with
  | zero =>
    constructor
    · intro h
      cases h
      exact ⟨fun h0 => absurd h0 (lt_irrefl 0), rfl, fun lp hlp => absurd hlp (Nat.not_lt_zero lp),
        fun _ _ => rfl⟩
    · rintro ⟨-, rfl, -, hrest⟩
      rw [funext fun lp => hrest lp (Nat.zero_le lp)]
      rfl
  | succ n ih =>
    rw [List.range_succ, run_append]
    constructor
    · intro h
      obtain ⟨⟨mid, cm⟩, hmid, hlast⟩ := Option.bind_eq_some_iff.mp h
      obtain ⟨hmatches, rfl, happlied, hrest⟩ := ih.mp hmid
      rw [run, Option.bind_eq_some_iff] at hlast
      obtain ⟨_, hstep, hend⟩ := hlast
      obtain ⟨check, c, hcheck, hc, rfl⟩ := processContext_iff.mp hstep
      obtain ⟨hnext, rfl⟩ := (check_next hpos hmatches).mp hcheck
      cases hend
      simp only [hrest n le_rfl] at hc
      refine ⟨fun _ => hnext, rfl, fun lp hlp => ?_, fun lp hlp => ?_⟩
      · rcases Nat.lt_or_eq_of_le (Nat.le_of_lt_succ hlp) with hlt | rfl
        · have h := happlied lp hlt
          rwa [Applied, ← Function.update_of_ne hlt.ne c cm] at h
        · rw [Applied, Function.update_self]
          exact hc
      · rw [Function.update_of_ne (show lp ≠ n by omega)]
        exact hrest lp (by omega)
    · rintro ⟨hmatches, rfl, happlied, hrest⟩
      have hnext := hmatches (Nat.succ_pos n)
      have hbefore : 0 < n → Matches processors n requests := fun hn i hi j hj hij =>
        hnext i hi j hj (hij.imp_right fun h => by omega)
      have hmid : run (processContext processors requests myR) (List.range n) (checkStart, cs) =
          some (lastCheck processors requests n, Function.update cs' n (cs n)) := by
        refine ih.mpr ⟨hbefore, rfl, fun lp hlp => ?_, fun lp hlp => ?_⟩
        · rw [Applied, Function.update_of_ne hlp.ne]
          exact happlied lp (by omega)
        · by_cases hl : lp = n
          · rw [hl, Function.update_self]
          · rw [Function.update_of_ne hl]
            exact hrest lp (by omega)
      have hstep : processContext processors requests myR n
          (lastCheck processors requests n, Function.update cs' n (cs n)) =
          some (lastCheck processors requests (n + 1), cs') := by
        refine processContext_iff.mpr ⟨_, cs' n, (check_next hpos hbefore).mpr ⟨hnext, rfl⟩, ?_, ?_⟩
        · simp only [Function.update_self]
          exact happlied n (Nat.lt_succ_self n)
        · simp only [Function.update_idem, Function.update_eq_self]
      rw [hmid, Option.bind_some, run, hstep]
      rfl

theorem processRequest_iff (hpos : 0 < processors) {n : ℕ} :
    processRequest processors n requests myR cs = some cs' ↔
      (0 < n → Matches processors n requests) ∧
      (∀ lp < n, Applied processors requests myR cs cs' lp) ∧ ∀ lp, n ≤ lp → cs' lp = cs lp := by
  constructor
  · intro h
    obtain ⟨⟨st, c⟩, hst, rfl⟩ := Option.map_eq_some_iff.mp h
    obtain ⟨hmatches, -, happlied, hrest⟩ := (contexts_run hpos).mp hst
    exact ⟨hmatches, happlied, hrest⟩
  · rintro ⟨hmatches, happlied, hrest⟩
    exact Option.map_eq_some_iff.mpr
      ⟨(_, cs'), (contexts_run hpos).mpr ⟨hmatches, rfl, happlied, hrest⟩, rfl⟩

end Position

section Serve

variable {processors g lp : ℕ} {c c' : ContextReg}

def Held (processors g lp : ℕ) (c : ContextReg) : Prop := ∃ L, Processing processors g lp L c

def holds (c : ContextReg) : ℕ → Bool := fun x => (c.memoryRegisterMap x).isSome

def serve (r : RegReq) (keys : ℕ → Bool) : Option (ℕ → Bool) :=
  if keys r.data = !r.push then some (Function.update keys r.data r.push) else none

def Serves (keys : ℕ → Bool) (rs : List RegReq) : Prop := ∃ keys', run serve rs keys = some keys'

theorem pushRegister_holds {x : ℕ} {e : MapEntry} (h : pushRegister processors c x e = some c') :
    holds c x = false ∧ holds c' = Function.update (holds c) x true := by
  rw [pushRegister] at h
  split at h
  · cases h
  · rename_i hnone
    cases h
    refine ⟨Bool.not_eq_true _ ▸ hnone, funext fun y => ?_⟩
    by_cases hy : y = x
    · simp [holds, hy]
    · simp [holds, hy]

theorem popRegister_holds {x : ℕ} (h : popRegister c x = some c') :
    holds c x = true ∧ holds c' = Function.update (holds c) x false := by
  obtain ⟨t, -, h⟩ := Option.bind_eq_some_iff.mp h
  split at h
  · cases h
  · rename_i hsome
    cases h
    refine ⟨Option.isSome_iff_ne_none.mpr fun hnone => hsome (by rw [hnone]; rfl),
      funext fun y => ?_⟩
    by_cases hy : y = x
    · simp [holds, hy]
    · simp [holds, hy]

theorem pushRegister_held (h : Held processors g lp c) (hg : g < processors) {l : Live}
    (hkey : holds c (l.row g) = false) :
    ∃ c', pushRegister processors c (l.row g) l.entry = some c' ∧ Held processors g lp c' := by
  obtain ⟨L, hL⟩ := h
  obtain ⟨c', hc', hnew⟩ := pushRegister_spec hL (Nat.zero_lt_of_lt hg) fun m hm heq => by
    have hsome : holds c (l.row g) = true := (map_isSome hL _).mpr ⟨m, hm, heq⟩
    exact Bool.false_ne_true (hkey.symm.trans hsome)
  exact ⟨c', hc', _, hnew⟩

theorem popRegister_held (h : Held processors g lp c) (hg : g < processors) {x : ℕ}
    (hkey : holds c x = true) : ∃ c', popRegister c x = some c' ∧ Held processors g lp c' := by
  obtain ⟨L, hL⟩ := h
  obtain ⟨l, hl, rfl⟩ := (map_isSome hL x).mp hkey
  obtain ⟨xs, ys, rfl⟩ := List.append_of_mem hl
  obtain ⟨c', hc', hrest⟩ := popRegister_spec hL hg
  exact ⟨c', hc', _, hrest⟩

variable {requests : ℕ → RegReq} {r : RegReq}

/-- A context follows its request exactly if its map has or lacks the address, as the kind of
the request asks. -/
theorem applyRequest_iff (h : Held processors g lp c) (hg : g < processors)
    (hkind : r.push = (requests g).push) :
    (∃ c', applyRequest processors c (seen r) requests (requests g).data = some c') ↔
      holds c (requests g).data = !(requests g).push := by
  cases hpush : (requests g).push with
  | true =>
    have hrow : (pushed processors requests r.size r.serial).row g = (requests g).data := if_pos hg
    rw [applyRequest, seen, hkind, hpush, if_pos rfl]
    constructor
    · rintro ⟨c', hc'⟩
      exact (pushRegister_holds hc').1
    · intro hkey
      obtain ⟨c', hc', -⟩ :=
        pushRegister_held h hg (l := pushed processors requests r.size r.serial)
        (by rw [hrow]; exact hkey)
      rw [hrow] at hc'
      exact ⟨c', hc'⟩
  | false =>
    rw [applyRequest, seen, hkind, hpush, if_neg (by simp)]
    constructor
    · rintro ⟨c', hc'⟩
      exact (popRegister_holds hc').1
    · intro hkey
      obtain ⟨c', hc', -⟩ := popRegister_held h hg hkey
      exact ⟨c', hc'⟩

theorem applyRequest_held (h : Held processors g lp c) (hg : g < processors)
    (hkind : r.push = (requests g).push)
    (hc : applyRequest processors c (seen r) requests (requests g).data = some c') :
    Held processors g lp c' ∧
      holds c' = Function.update (holds c) (requests g).data (requests g).push := by
  have hkey := (applyRequest_iff h hg hkind).mp ⟨c', hc⟩
  cases hpush : (requests g).push with
  | true =>
    have hrow : (pushed processors requests r.size r.serial).row g = (requests g).data := if_pos hg
    rw [hpush] at hkey
    rw [applyRequest, seen, hkind, hpush, if_pos rfl] at hc
    obtain ⟨c'', hc'', hheld⟩ := pushRegister_held h hg
      (l := pushed processors requests r.size r.serial) (by rw [hrow]; exact hkey)
    rw [hrow] at hc''
    cases hc.symm.trans hc''
    exact ⟨hheld, (pushRegister_holds hc).2⟩
  | false =>
    rw [hpush] at hkey
    rw [applyRequest, seen, hkind, hpush, if_neg (by simp)] at hc
    obtain ⟨c'', hc'', hheld⟩ := popRegister_held h hg hkey
    cases hc.symm.trans hc''
    exact ⟨hheld, (popRegister_holds hc).2⟩

theorem held_localPid (h : Held processors g lp c) : c.localPid = lp := by
  obtain ⟨L, hL⟩ := h
  exact hL.localPid

end Serve

section Positions

variable {processors n : ℕ} {pidOf : ℕ → ℕ} {requests myR : ℕ → RegReq}
  {request my : ℕ → ℕ → RegReq}
  {cs cs' : ℕ → ContextReg}

structure NodeHeld (processors n : ℕ) (pidOf : ℕ → ℕ) (cs : ℕ → ContextReg) : Prop where
  pid_lt : ∀ lp < n, pidOf lp < processors
  held : ∀ lp < n, Held processors (pidOf lp) lp (cs lp)

theorem matches_kind (h : Matches processors n requests) {i j : ℕ} (hi : i < processors)
    (hj : j < processors) : (requests i).push = (requests j).push := by
  rcases lt_trichotomy i j with hij | rfl | hij
  · exact (h i hi j hj (.inl hij)).kind _ rfl
  · rfl
  · exact ((h j hj i hi (.inl hij)).kind _ rfl).symm

theorem position_accepted (hpos : 0 < processors) (hcs : NodeHeld processors n pidOf cs)
    (hmy : ∀ lp < n, myR lp = requests (pidOf lp))
    (h : processRequest processors n requests myR cs = some cs') :
    (0 < n → Matches processors n requests) ∧ NodeHeld processors n pidOf cs' ∧
      ∀ lp < n, serve (requests (pidOf lp)) (holds (cs lp)) = some (holds (cs' lp)) := by
  obtain ⟨hmatches, happlied, -⟩ := (processRequest_iff hpos).mp h
  have hspec : ∀ lp < n, Held processors (pidOf lp) lp (cs' lp) ∧
      serve (requests (pidOf lp)) (holds (cs lp)) = some (holds (cs' lp)) := by
    intro lp hlp
    have hpid := hcs.pid_lt lp hlp
    have hkind := matches_kind (hmatches (Nat.zero_lt_of_lt hlp)) (Nat.sub_one_lt hpos.ne') hpid
    have hc := happlied lp hlp
    rw [Applied, held_localPid (hcs.held lp hlp), hmy lp hlp] at hc
    obtain ⟨hheld, hkeys⟩ := applyRequest_held (hcs.held lp hlp) hpid hkind hc
    refine ⟨hheld, ?_⟩
    rw [serve, if_pos ((applyRequest_iff (hcs.held lp hlp) hpid hkind).mp ⟨_, hc⟩), hkeys]
  exact ⟨hmatches, ⟨hcs.pid_lt, fun lp hlp => (hspec lp hlp).1⟩, fun lp hlp => (hspec lp hlp).2⟩

theorem position_served (hpos : 0 < processors) (hcs : NodeHeld processors n pidOf cs)
    (hmy : ∀ lp < n, myR lp = requests (pidOf lp))
    (hmatches : 0 < n → Matches processors n requests)
    (hserve : ∀ lp < n, (serve (requests (pidOf lp)) (holds (cs lp))).isSome) :
    ∃ cs', processRequest processors n requests myR cs = some cs' := by
  have happly : ∀ lp < n, ∃ c', applyRequest processors (cs lp) (seen (requests (processors - 1)))
      requests (myR (cs lp).localPid).data = some c' := by
    intro lp hlp
    have hpid := hcs.pid_lt lp hlp
    have hkind := matches_kind (hmatches (Nat.zero_lt_of_lt hlp)) (Nat.sub_one_lt hpos.ne') hpid
    rw [held_localPid (hcs.held lp hlp), hmy lp hlp]
    refine (applyRequest_iff (hcs.held lp hlp) hpid hkind).mpr ?_
    by_contra hkey
    have hnone : serve (requests (pidOf lp)) (holds (cs lp)) = none := if_neg hkey
    exact absurd (hserve lp hlp) (by rw [hnone]; exact Bool.false_ne_true)
  have hinh : Nonempty ContextReg := ⟨cs 0⟩
  choose! c' hc' using happly
  refine ⟨fun lp => if lp < n then c' lp else cs lp, (processRequest_iff hpos).mpr
    ⟨hmatches, fun lp hlp => ?_, fun lp hlp => if_neg hlp.not_gt⟩⟩
  rw [Applied, if_pos hlp]
  exact hc' lp hlp

def ownBelow (request : ℕ → ℕ → RegReq) (g k : ℕ) : List RegReq :=
  (List.range k).map fun i => request i g

theorem ownBelow_succ (request : ℕ → ℕ → RegReq) (g k : ℕ) :
    ownBelow request g (k + 1) = ownBelow request g k ++ [request k g] := by
  rw [ownBelow, List.range_succ, List.map_append]
  rfl

theorem positions_accepted (hpos : 0 < processors) (hcs : NodeHeld processors n pidOf cs)
    (hmy : ∀ i lp, lp < n → my i lp = request i (pidOf lp)) {k : ℕ}
    (h : run (fun req => processRequest processors n (request req) (my req)) (List.range k) cs =
      some cs') :
    (0 < n → ∀ i < k, Matches processors n (request i)) ∧ NodeHeld processors n pidOf cs' ∧
      ∀ lp < n, run serve (ownBelow request (pidOf lp) k) (holds (cs lp)) =
        some (holds (cs' lp)) := by
  induction k generalizing cs' with
  | zero =>
    cases h
    exact ⟨fun _ i hi => absurd hi (Nat.not_lt_zero i), hcs, fun _ _ => rfl⟩
  | succ k ih =>
    rw [List.range_succ, run_append] at h
    obtain ⟨mid, hmid, hlast⟩ := Option.bind_eq_some_iff.mp h
    simp only [run, Option.bind_fun_some] at hlast
    obtain ⟨hmatches, hheld, hserved⟩ := ih hmid
    obtain ⟨hnext, hheld', hserve⟩ := position_accepted hpos hheld (hmy k) hlast
    refine ⟨fun hn i hi => ?_, hheld', fun lp hlp => ?_⟩
    · rcases Nat.lt_or_eq_of_le (Nat.le_of_lt_succ hi) with hlt | rfl
      · exact hmatches hn i hlt
      · exact hnext hn
    · rw [ownBelow_succ, run_append, hserved lp hlp, Option.bind_some, run, hserve lp hlp]
      rfl

theorem positions_served (hpos : 0 < processors) (hcs : NodeHeld processors n pidOf cs)
    (hmy : ∀ i lp, lp < n → my i lp = request i (pidOf lp)) {k : ℕ}
    (hmatches : 0 < n → ∀ i < k, Matches processors n (request i))
    (hserves : ∀ lp < n, Serves (holds (cs lp)) (ownBelow request (pidOf lp) k)) :
    ∃ cs', run (fun req => processRequest processors n (request req) (my req)) (List.range k) cs =
      some cs' := by
  induction k with
  | zero => exact ⟨cs, rfl⟩
  | succ k ih =>
    have hsplit : ∀ lp < n, ∃ keys, run serve (ownBelow request (pidOf lp) k) (holds (cs lp)) =
        some keys ∧ (serve (request k (pidOf lp)) keys).isSome := by
      intro lp hlp
      obtain ⟨keys', hkeys'⟩ := hserves lp hlp
      rw [ownBelow_succ, run_append] at hkeys'
      obtain ⟨keys, hkeys, hlast⟩ := Option.bind_eq_some_iff.mp hkeys'
      simp only [run, Option.bind_fun_some] at hlast
      exact ⟨keys, hkeys, Option.isSome_iff_exists.mpr ⟨_, hlast⟩⟩
    obtain ⟨mid, hmid⟩ := ih (fun hn i hi => hmatches hn i (by omega))
      fun lp hlp => (hsplit lp hlp).imp fun _ h => h.1
    obtain ⟨-, hheld, hserved⟩ := positions_accepted hpos hcs hmy hmid
    obtain ⟨cs', hcs'⟩ := position_served hpos hheld (hmy k)
      (fun hn => hmatches hn k (Nat.lt_succ_self k)) fun lp hlp => by
        obtain ⟨keys, hkeys, hlast⟩ := hsplit lp hlp
        cases (hserved lp hlp).symm.trans hkeys
        exact hlast
    refine ⟨cs', ?_⟩
    rw [List.range_succ, run_append, hmid, Option.bind_some, run, hcs']
    rfl

end Positions

section Node

variable {processors nnodes : ℕ} {w : ℕ → ContextReg} {fresh : ℕ → ℕ → RegReq} {regReqSize : ℕ}

def AllHeld (processors nnodes : ℕ) (w : ℕ → ContextReg) : Prop :=
  ∀ gp < processors, Held processors gp (gp % icd processors nnodes) (takeRequests (w gp))

theorem nodeHeld_start (h : Mapped processors nnodes) (hw : AllHeld processors nnodes w)
    (rank : ℕ) :
    NodeHeld processors (taskMapper processors nnodes rank).procsThisNode
      (fun lp => rank * icd processors nnodes + lp)
      fun lp => takeRequests ((taskMapper processors nnodes rank).getContext w rank lp) := by
  refine ⟨fun lp hlp => (local_global h hlp).1, fun lp hlp => ?_⟩
  obtain ⟨h1, -, h3⟩ := local_global h hlp
  have hp := hw _ h1
  rw [h3] at hp
  rw [getContext_eq h w hlp]
  exact hp

theorem processMemoryregOps_iff (h : Mapped processors nnodes) (hw : AllHeld processors nnodes w)
    (rank : ℕ) :
    let n := (taskMapper processors nnodes rank).procsThisNode
    let request := requestOf processors nnodes fresh w regReqSize rank
    (∃ cs, processMemoryregOps processors nnodes fresh w regReqSize rank = some cs) ↔
      (0 < n → ∀ k < regReqSize, Matches processors n (request k)) ∧
      ∀ lp < n, Serves (holds (w (rank * icd processors nnodes + lp)))
        (ownBelow request (rank * icd processors nnodes + lp) regReqSize) := by
  intro n request
  have hheld := nodeHeld_start h hw rank
  have hmy : ∀ i lp, lp < n → ownRequest processors nnodes fresh w regReqSize rank i lp =
      request i (rank * icd processors nnodes + lp) :=
    fun i lp hlp => ownRequest_eq h fresh rank i lp hlp
  have hkeys : ∀ lp < n, holds (takeRequests ((taskMapper processors nnodes rank).getContext w rank
      lp)) = holds (w (rank * icd processors nnodes + lp)) := by
    intro lp hlp
    rw [getContext_eq h w hlp]
    rfl
  have hn := taskMapper_nprocs h rank
  constructor
  · rintro ⟨cs, hcs⟩
    obtain ⟨cs', hcs', -⟩ := Option.map_eq_some_iff.mp hcs
    rw [hn] at hcs'
    obtain ⟨hmatches, -, hserved⟩ := positions_accepted h.processors_pos hheld hmy hcs'
    refine ⟨hmatches, fun lp hlp => ?_⟩
    rw [← hkeys lp hlp]
    exact ⟨_, hserved lp hlp⟩
  · rintro ⟨hmatches, hserves⟩
    obtain ⟨cs', hcs'⟩ := positions_served h.processors_pos hheld hmy hmatches fun lp hlp => by
      rw [hkeys lp hlp]
      exact hserves lp hlp
    simp only [processMemoryregOps, hn]
    exact ⟨_, congrArg (Option.map _) hcs'⟩

theorem requestOf_fresh (h : Mapped processors nnodes) {gp k : ℕ} (hgp : gp < processors)
    (hlen : ∀ gp < processors, (w gp).regRequests.length ≤ regReqSize) (hk : k < regReqSize)
    (hmiss : (w gp).regRequests.length ≤ k) (rank : ℕ) :
    let m := icd processors nnodes
    requestOf processors nnodes fresh w regReqSize rank k gp =
      fresh (gp / m) (rank * (regReqSize * m) + (gp % m * regReqSize + k)) := by
  intro m
  have hm : 0 < m := icd_pos h
  simp only [requestOf, recvRequests, globalToNode_eq h _ hgp, globalToLocal_eq h _ hgp,
    procsPerNode_eq h]
  rw [recv_place h fresh hk, sendRequests, procsPerNode_eq h]
  refine writeAll_of_outside _ fun e he => ?_
  obtain ⟨lp, hlp, j, r, hget, q, -, rfl⟩ := mem_requestWrites.mp he
  rw [getContext_eq h _ hlp] at hget
  have hj := (List.getElem?_eq_some_iff.mp hget).1
  have hjlt : j < regReqSize := Nat.lt_of_lt_of_le hj (hlen _ (local_global h hlp).1)
  have hlpm : lp < m := by
    rw [procsThisNode_eq h] at hlp
    omega
  -- a write to this place would be request `k` of the context
  have hne : rank * (regReqSize * m) + (gp % m * regReqSize + k) ≠
      lp * regReqSize + j + q * (regReqSize * m) := by
    intro heq
    obtain ⟨-, h1⟩ := block_index (p := rank) (position_lt (Nat.mod_lt gp hm) hk)
    obtain ⟨-, h2⟩ := block_index (p := q) (position_lt hlpm hjlt)
    rw [Nat.add_comm _ (q * _)] at heq
    rw [heq, h2] at h1
    obtain ⟨h3, h4⟩ := block_index (p := gp % m) hk
    obtain ⟨h5, h6⟩ := block_index (p := lp) hjlt
    rw [h1] at h5 h6
    have hdm := Nat.div_add_mod gp m
    rw [Nat.mul_comm, h3.symm.trans h5] at hdm
    rw [hdm] at hj
    omega
  exact (Nat.lt_or_gt_of_ne hne).imp_right Nat.succ_le_of_lt

/-- All contexts queue equally many requests, which agree and can be followed. -/
structure Accepted (processors nnodes : ℕ) (w : ℕ → ContextReg) (regReqSize : ℕ) : Prop where
  count : SameCount processors w regReqSize
  agree : ∀ q < nnodes, 0 < (taskMapper processors nnodes q).procsThisNode → ∀ k < regReqSize,
    Matches processors (taskMapper processors nnodes q).procsThisNode (requestAt w k)
  served : ∀ g < processors, Serves (holds (w g)) (w g).regRequests

theorem ownBelow_queue {g : ℕ} (hlen : (w g).regRequests.length = regReqSize) :
    ownBelow (requestAt w) g regReqSize = (w g).regRequests := by
  refine List.ext_getElem (by rw [ownBelow, List.length_map, List.length_range, hlen]) ?_
  intro k _ hk
  simp [ownBelow, requestAt, List.getElem?_eq_getElem hk]

theorem matches_congr {n : ℕ} {requests requests' : ℕ → RegReq}
    (heq : ∀ gp < processors, requests' gp = requests gp) (h : Matches processors n requests) :
    Matches processors n requests' := by
  intro i hi j hj hij
  rw [heq i hi, heq j hj]
  exact h i hi j hj hij

theorem counted_iff (h : Mapped processors nnodes) (hw : AllHeld processors nnodes w)
    (hcount : SameCount processors w regReqSize) (fresh : ℕ → ℕ → RegReq) :
    (∀ rank < nnodes, ∃ cs, processMemoryregOps processors nnodes fresh w regReqSize rank =
      some cs) ↔ Accepted processors nnodes w regReqSize := by
  have hsame : ∀ rank < nnodes, ∀ k < regReqSize, ∀ gp < processors,
      requestOf processors nnodes fresh w regReqSize rank k gp = requestAt w k gp :=
    fun rank hrank k hk gp hgp => requestOf_eq h fresh hcount hgp hrank hk
  have hown : ∀ rank < nnodes, ∀ gp < processors,
      ownBelow (requestOf processors nnodes fresh w regReqSize rank) gp regReqSize =
        (w gp).regRequests := by
    intro rank hrank gp hgp
    rw [← ownBelow_queue (hcount gp hgp)]
    exact List.map_congr_left fun k hk => hsame rank hrank k (List.mem_range.mp hk) gp hgp
  constructor
  · intro hall
    refine ⟨hcount, fun q hq hthis k hk => ?_, fun g hg => ?_⟩
    · exact matches_congr (fun gp hgp => (hsame q hq k hk gp hgp).symm)
        (((processMemoryregOps_iff h hw q).mp (hall q hq)).1 hthis k hk)
    · have hlt := mod_lt_procs h hg
      have hdm := Nat.div_add_mod' g (icd processors nnodes)
      have hserves := ((processMemoryregOps_iff h hw _).mp (hall _ (node_lt h hg))).2 _ hlt
      rwa [hdm, hown _ (node_lt h hg) g hg] at hserves
  · intro haccepted rank hrank
    refine (processMemoryregOps_iff h hw rank).mpr ⟨fun hthis k hk => ?_, fun lp hlp => ?_⟩
    · exact matches_congr (hsame rank hrank k hk) (haccepted.agree rank hrank hthis k hk)
    · have hlt := (local_global h hlp).1
      rw [hown rank hrank _ hlt]
      exact haccepted.served _ hlt

/-- Where the queues differ in length, what the allocation contains can be of the other kind. -/
theorem uneven_refused (h : Mapped processors nnodes) (hw : AllHeld processors nnodes w)
    (hlen : ∀ gp < processors, (w gp).regRequests.length ≤ regReqSize) {g g' : ℕ}
    (hg : g < processors) (hg' : g' < processors) (hmost : (w g).regRequests.length = regReqSize)
    (hless : (w g').regRequests.length < regReqSize) :
    ∃ fresh, processMemoryregOps processors nnodes fresh w regReqSize 0 = none := by
  have hk : regReqSize - 1 < regReqSize := Nat.sub_one_lt (Nat.ne_zero_of_lt hless)
  obtain ⟨r, hr⟩ : ∃ r, (w g).regRequests[regReqSize - 1]? = some r :=
    ⟨_, List.getElem?_eq_getElem (by omega)⟩
  refine ⟨fun _ _ => { data := 0, size := 0, serial := 0, push := !r.push }, ?_⟩
  by_contra hsome
  obtain ⟨cs, hcs⟩ := Option.ne_none_iff_exists'.mp hsome
  have hmatches := ((processMemoryregOps_iff h hw 0).mp ⟨cs, hcs⟩).1 (first_contexts h) _ hk
  have hkind := matches_kind hmatches hg hg'
  rw [requestOf_fresh h hg' hlen hk (by omega)] at hkind
  have hown := recv_request h (fun _ _ => { data := 0, size := 0, serial := 0, push := !r.push })
    hlen hg h.nnodes_pos hr
  simp only [requestOf, recvRequests, globalToNode_eq h _ hg, globalToLocal_eq h _ hg,
    procsPerNode_eq h, hown] at hkind
  cases hpush : r.push <;> simp [hpush] at hkind

theorem nodeReqSize_length (h : Mapped processors nnodes) {q size : ℕ}
    (hsize : nodeReqSize processors nnodes w q = some size) {lp : ℕ}
    (hlp : lp < (taskMapper processors nnodes q).procsThisNode) :
    (w (q * icd processors nnodes + lp)).regRequests.length = size := by
  obtain ⟨common, hcommon, rfl⟩ := Option.map_eq_some_iff.mp hsize
  have hlen := commonSize_run hcommon lp hlp
  rw [getContext_eq h w hlp] at hlen
  rw [hlen, Option.getD_some]

theorem nodeSize_idle {q : ℕ} (hnone : (taskMapper processors nnodes q).procsThisNode = 0) :
    nodeSize processors nnodes w q = 0 := by
  rw [nodeSize, nodeReqSize, hnone]
  rfl

structure EvenQueues (processors nnodes : ℕ) (w : ℕ → ContextReg) : Prop where
  even : ∀ q < nnodes, (nodeReqSize processors nnodes w q).isSome
  few : ∀ gp < processors, (w gp).regRequests.length < 2 ^ 27

theorem queue_length (h : Mapped processors nnodes) (heven : EvenQueues processors nnodes w)
    {gp : ℕ}
    (hgp : gp < processors) :
    (w gp).regRequests.length = nodeSize processors nnodes w (gp / icd processors nnodes) := by
  obtain ⟨size, hsize⟩ := Option.isSome_iff_exists.mp (heven.even _ (node_lt h hgp))
  have hlt := mod_lt_procs h hgp
  have hlen := nodeReqSize_length h hsize hlt
  have hdm := Nat.div_add_mod' gp (icd processors nnodes)
  rw [hdm] at hlen
  rw [nodeSize, hsize, hlen, Option.getD_some]

theorem nodeSize_first (h : Mapped processors nnodes) (heven : EvenQueues processors nnodes w)
    {q : ℕ}
    (hq : q < nnodes) (hsize : nodeSize processors nnodes w q ≠ 0) :
    ∃ g < processors, (w g).regRequests.length = nodeSize processors nnodes w q := by
  have hthis : 0 < (taskMapper processors nnodes q).procsThisNode :=
    Nat.pos_of_ne_zero fun hnone => hsize (nodeSize_idle hnone)
  obtain ⟨size, hq⟩ := Option.isSome_iff_exists.mp (heven.even q hq)
  refine ⟨_, (local_global h hthis).1, ?_⟩
  rw [nodeReqSize_length h hq hthis, nodeSize, hq, Option.getD_some]

theorem nodeSize_lt (h : Mapped processors nnodes) (heven : EvenQueues processors nnodes w) {q : ℕ}
    (hq : q < nnodes) : nodeSize processors nnodes w q < 2 ^ 27 := by
  by_cases hsize : nodeSize processors nnodes w q = 0
  · rw [hsize]
    decide
  · obtain ⟨g, hg, hlen⟩ := nodeSize_first h heven hq hsize
    rw [← hlen]
    exact heven.few g hg

theorem even_memregSize (h : Mapped processors nnodes) (heven : EvenQueues processors nnodes w)
    {q : ℕ}
    (hq : q < nnodes) :
    memregSize processors nnodes w q = largest (nodeSize processors nnodes w) nnodes :=
  memregSize_largest (fun _ hp => nodeSize_lt h heven hp) hq

theorem passes_count (h : Mapped processors nnodes) (hw : AllHeld processors nnodes w)
    (heven : EvenQueues processors nnodes w)
    (hall : ∀ fresh, ∃ cs, memregAt processors nnodes fresh w 0 = some cs) :
    SameCount processors w (largest (nodeSize processors nnodes w) nnodes) := by
  have hlen : ∀ gp < processors,
      (w gp).regRequests.length ≤ largest (nodeSize processors nnodes w) nnodes := by
    intro gp hgp
    rw [queue_length h heven hgp]
    exact le_largest _ (node_lt h hgp)
  intro g' hg'
  by_contra hne
  have hless := Nat.lt_of_le_of_ne (hlen g' hg') hne
  have hlarge := Nat.zero_lt_of_lt hless
  obtain ⟨q, hq, hmost⟩ := largest_attained (nodeSize processors nnodes w) h.nnodes_pos
  obtain ⟨g, hg, hown⟩ := nodeSize_first h heven hq (by omega)
  obtain ⟨fresh, hfresh⟩ := uneven_refused h hw hlen hg hg' (hown.trans hmost.symm) hless
  obtain ⟨cs, hcs⟩ := hall fresh
  rw [memregAt_process heven.even hlarge h.nnodes_pos fun p hp => even_memregSize h heven hp] at hcs
  cases hfresh.symm.trans hcs

/-- The registrations pass on every node, whatever the allocations contain, exactly if they
are accepted. -/
theorem memregAt_iff (h : Mapped processors nnodes) (hw : AllHeld processors nnodes w)
    (heven : EvenQueues processors nnodes w) :
    (∀ fresh, ∀ q < nnodes, ∃ cs, memregAt processors nnodes fresh w q = some cs) ↔
      ∃ regReqSize, Accepted processors nnodes w regReqSize := by
  constructor
  · intro hall
    have hcount := passes_count h hw heven fun fresh => hall fresh 0 h.nnodes_pos
    refine ⟨largest (nodeSize processors nnodes w) nnodes, ?_⟩
    rcases Nat.eq_zero_or_pos (largest (nodeSize processors nnodes w) nnodes) with hzero | hlarge
    · rw [hzero] at hcount ⊢
      refine ⟨hcount, fun q _ _ k hk => absurd hk (Nat.not_lt_zero k), fun g hg => ?_⟩
      rw [List.length_eq_zero_iff.mp (hcount g hg)]
      exact ⟨_, rfl⟩
    · refine (counted_iff h hw hcount fun _ _ => ⟨0, 0, 0, true⟩).mp fun q hq => ?_
      have hmem := hall (fun _ _ => ⟨0, 0, 0, true⟩) q hq
      rwa [memregAt_process heven.even hlarge hq fun p hp => even_memregSize h heven hp] at hmem
  · rintro ⟨regReqSize, haccepted⟩ fresh q hq
    have hpos := h.processors_pos
    have hcount := haccepted.count
    have hbound : regReqSize < 2 ^ 27 := (hcount 0 hpos).symm.trans_lt (heven.few 0 hpos)
    have hsizes : ∀ p < nnodes, memregSize processors nnodes w p = regReqSize :=
      fun p hp => memregSize_spec h hcount hbound hp
    rcases Nat.eq_zero_or_pos regReqSize with rfl | hlarge
    · exact ⟨_, memregAt_skip heven.even (hsizes q hq).le⟩
    · rw [memregAt_process heven.even hlarge hq hsizes]
      exact (counted_iff h hw hcount fresh).mpr haccepted q hq

end Node

section Kept

variable {processors nnodes : ℕ} {w w' : ℕ → ContextReg} {fresh : ℕ → ℕ → RegReq}

theorem regExec_take {op : RegOp} {c c' : ContextReg} (h : regExec op c = some c') :
    takeRequests c' = takeRequests c := by
  cases op with
  | push ident nbytes =>
    obtain ⟨-, hc⟩ := Option.ite_none_right_eq_some.mp h
    cases hc
    rfl
  | pop ident =>
    obtain ⟨-, hc⟩ := Option.ite_none_right_eq_some.mp h
    obtain ⟨e, -, rfl⟩ := Option.map_eq_some_iff.mp hc
    rfl

theorem held_taken {g lp : ℕ} {c : ContextReg} (h : Held processors g lp c) :
    Held processors g lp (takeRequests c) := by
  obtain ⟨L, hL⟩ := h
  exact ⟨L, hL.pid, hL.localPid, hL.table, hL.nprocs, hL.srcProc, hL.nodup, hL.map, rfl⟩

theorem processMemoryregOps_held (h : Mapped processors nnodes) (hw : AllHeld processors nnodes w)
    {rank size : ℕ} {cs : ℕ → ContextReg}
    (hs : processMemoryregOps processors nnodes fresh w size rank = some cs) {lp : ℕ}
    (hlp : lp < (taskMapper processors nnodes rank).procsThisNode) :
    Held processors (rank * icd processors nnodes + lp) lp (cs lp) := by
  obtain ⟨cs', hcs', rfl⟩ := Option.map_eq_some_iff.mp hs
  rw [taskMapper_nprocs h rank] at hcs'
  obtain ⟨-, hheld, -⟩ := positions_accepted h.processors_pos (nodeHeld_start h hw rank)
    (fun i lp hlp => ownRequest_eq h fresh rank i lp hlp) hcs'
  obtain ⟨L, hL⟩ := hheld.held lp hlp
  exact ⟨L, (pack_inv hL (hheld.pid_lt lp hlp)).processing⟩

theorem syncMemoryreg_held (h : Mapped processors nnodes) (hw : AllHeld processors nnodes w)
    (hs : syncMemoryreg processors nnodes fresh w = some w') : AllHeld processors nnodes w' := by
  rcases syncMemoryreg_cases h hs with ⟨-, rfl⟩ | ⟨size, -, -, hprocessed⟩
  · exact hw
  · intro gp hgp
    obtain ⟨cs, hcs, hlocal⟩ := hprocessed _ (node_lt h hgp)
    have hlt := mod_lt_procs h hgp
    have hheld := processMemoryregOps_held h hw hcs hlt
    have hdm := Nat.div_add_mod' gp (icd processors nnodes)
    rw [← hlocal _ hlt, hdm] at hheld
    exact held_taken hheld

end Kept

end BspOnMpi.ContextAccept
