import OsgiManager.Http.Isolation
import Mathlib.Algebra.Group.Action.Defs
import Mathlib.Algebra.Order.BigOperators.Group.List
import Mathlib.Algebra.Order.Ring.Nat

namespace OsgiManager.Http

open OsgiManager.Lib

/-!
# Outstanding operations

`server::run` returns when no operation is outstanding any more.  That never happens before a
signal: an accept and the wait for the signal are outstanding until then.  After it nothing is
started on an open socket, and the operations that are left run out.

* `Server.delivers` — whether a completion is one of an outstanding operation;
* `Server.Idle` — none is outstanding;
* `Server.load` — how many are;
* `run_returns_after_signal` — before a signal, exactly one accept and one wait are outstanding, and
  what an idle server looks like;
* `load_step`, `load_foldl` — after a signal, each completion but a successful read is one
  operation less;
* `shutdown_drains` — so the completions after a signal are bounded;
* `managed_pending` — no connection is managed without an operation that will end it.
-/

variable {docRoot : Bytes} {s : Server} {c : Connection} {id : Nat}

namespace Server

/-- Is the completion one of an outstanding operation? -/
def delivers (s : Server) : Completion → Bool
  | .accept _ _ _ _ => s.accepts ≠ 0
  | .read id _ _ _  => s.awaits id Op.isRead
  | .write id _     => s.awaits id Op.isWrite
  | .signal _       => s.waits ≠ 0

/-- Nothing is outstanding: `io_service::run` returns. -/
def Idle (s : Server) : Prop := ∀ e, s.delivers e = false

/-- The number of outstanding operations. -/
def load (s : Server) : Nat :=
  s.accepts + s.waits + (s.connections.map fun c => c.pending.length).sum

/-- What the acceptor and the signal set wait for. -/
structure Waits (s : Server) : Prop where
  opened : s.acceptorOpen = true → s.accepts = 1 ∧ s.waits = 1
  closed : s.acceptorOpen = false → s.accepts ≤ 1 ∧ s.waits = 0

theorem waits_make : make.Waits where
  opened := fun _ => ⟨rfl, rfl⟩
  closed := by
    intro h
    cases h

/-- An accept that has been delivered is started again as long as the acceptor is open. -/
theorem accepts_onAccept (s : Server) (ec : ErrorCode) (major minor : Int) (status : StatusType) :
    (s.onAccept ec major minor status).acceptorOpen = s.acceptorOpen ∧
      (s.onAccept ec major minor status).waits = s.waits ∧
      (s.onAccept ec major minor status).accepts =
        if s.acceptorOpen = true then s.accepts + 1 else s.accepts := by
  cases hopen : s.acceptorOpen with
  | false => simp [onAccept, hopen]
  | true =>
    by_cases hec : ec = .success
    · simp [onAccept, hopen, hec, start, doAccept]
    · simp [onAccept, hopen, hec, doAccept]

/-- The handlers of a connection leave the acceptor and the signal set alone. -/
theorem Waits.onRead (hs : s.Waits) (id : Nat) (ec : ErrorCode) (data : Bytes)
    (files : Bytes → Option Bytes) : (s.onRead docRoot id ec data files).Waits := by
  unfold Server.onRead
  split_ifs <;> exact ⟨hs.opened, hs.closed⟩

theorem Waits.onWrite (hs : s.Waits) (id : Nat) (ec : ErrorCode) : (s.onWrite id ec).Waits := by
  unfold Server.onWrite
  split_ifs <;> exact ⟨hs.opened, hs.closed⟩

theorem Waits.complete (hs : s.Waits) (id : Nat) (isOp : Op → Bool) : (s.complete id isOp).Waits :=
  ⟨hs.opened, hs.closed⟩

end Server

/-- **Step lemma.** -/
theorem step_waits (docRoot : Bytes) (s : Server) (e : Completion) (hs : s.Waits) :
    (step docRoot s e).Waits := by
  cases e with
  | accept ec major minor status =>
    rw [step]
    split_ifs with hnone
    · exact hs
    · obtain ⟨hopen, hwaits, haccepts⟩ := Server.accepts_onAccept
        { s with accepts := s.accepts - 1, socketOpen := s.socketOpen || decide (ec = .success) }
        ec major minor status
      refine ⟨fun h => ?_, fun h => ?_⟩
      · have h' : s.acceptorOpen = true := hopen.symm.trans h
        obtain ⟨ha, hw⟩ := hs.opened h'
        rw [haccepts, hwaits, if_pos h']
        exact ⟨by show s.accepts - 1 + 1 = 1; omega, hw⟩
      · have h' : s.acceptorOpen = false := hopen.symm.trans h
        obtain ⟨ha, hw⟩ := hs.closed h'
        rw [haccepts, hwaits, if_neg (by simp [h'])]
        exact ⟨by show s.accepts - 1 ≤ 1; omega, hw⟩
  | read id ec data files =>
    rw [step]
    split_ifs
    · exact (hs.complete id Op.isRead).onRead id ec data files
    · exact hs
  | write id ec =>
    rw [step]
    split_ifs
    · exact (hs.complete id Op.isWrite).onWrite id ec
    · exact hs
  | signal ec =>
    rw [step]
    split_ifs with hnone
    · exact hs
    · refine ⟨fun h => ?_, fun _ => ?_⟩
      · cases h
      · show s.accepts ≤ 1 ∧ s.waits - 1 = 0
        cases hopen : s.acceptorOpen with
        | true =>
          obtain ⟨ha, hw⟩ := hs.opened hopen
          omega
        | false =>
          obtain ⟨ha, hw⟩ := hs.closed hopen
          omega

/-- **Run lemma.** -/
theorem served_waits (docRoot : Bytes) (cs : List Completion) : (served docRoot cs).Waits :=
  foldl_invariant (step_waits docRoot) Server.waits_make cs

/-! ### Before a signal -/

theorem step_acceptorOpen (docRoot : Bytes) (s : Server) (e : Completion)
    (he : ∀ ec, e ≠ .signal ec) :
    (step docRoot s e).acceptorOpen = s.acceptorOpen := by
  cases e with
  | accept ec major minor status =>
    rw [step]
    split_ifs
    · rfl
    · exact (Server.accepts_onAccept _ ec major minor status).1
  | read id ec data files =>
    rw [step]
    unfold Server.onRead
    split_ifs <;> rfl
  | write id ec =>
    rw [step]
    unfold Server.onWrite
    split_ifs <;> rfl
  | signal ec => exact absurd rfl (he ec)

/-- Without a signal the acceptor stays open. -/
theorem served_open {cs : List Completion} (h : ∀ ec, .signal ec ∉ cs) :
    (served docRoot cs).acceptorOpen = true := by
  induction cs using List.reverseRecOn with
  | nil => rfl
  | append_singleton cs e ih =>
    have he : ∀ ec, e ≠ .signal ec := fun ec heq => h ec (by simp [heq])
    rw [served, List.foldl_append]
    show (step docRoot (served docRoot cs) e).acceptorOpen = true
    rw [step_acceptorOpen docRoot _ e he]
    exact ih fun ec hmem => h ec (List.mem_append_left _ hmem)

/-- What an idle server has left. -/
theorem Server.Idle.spec (h : s.Idle) (hs : s.Inv) :
    s.accepts = 0 ∧ s.waits = 0 ∧ ∀ c ∈ s.connections, c.pending = [] := by
  refine ⟨?_, ?_, fun c hc => ?_⟩
  · simpa [delivers] using h (.accept .success 0 0 .ok)
  · simpa [delivers] using h (.signal .success)
  · obtain ⟨id, hid⟩ := List.mem_iff_getElem?.mp hc
    have hread := h (.read id .success [] fun _ => none)
    have hwrite := h (.write id .success)
    rw [delivers.eq_def] at hread hwrite
    simp only [awaits_eq hid] at hread hwrite
    cases (hs.connections id c hid).1.phase with
    | reading hp _ =>
      rw [hp] at hread
      cases hread
    | writing hp _ =>
      rw [hp] at hwrite
      cases hwrite
    | finished hp _ => exact hp

/-- **Before a signal** one accept and the wait for the signal are outstanding, no more and no
    less.  So the server is idle only after a signal, and then the acceptor is closed, nothing is
    managed, and all connections are finished and their sockets closed. -/
theorem run_returns_after_signal (docRoot : Bytes) (cs : List Completion) :
    ((∀ ec, .signal ec ∉ cs) → (served docRoot cs).accepts = 1 ∧ (served docRoot cs).waits = 1) ∧
    ((served docRoot cs).Idle → (∃ ec, .signal ec ∈ cs) ∧
      (served docRoot cs).acceptorOpen = false ∧ (served docRoot cs).managed = ∅ ∧
      ∀ c ∈ (served docRoot cs).connections,
        c.pending = [] ∧ c.stopped = true ∧ c.socketOpen = false) := by
  have hs : (served docRoot cs).Inv := served_inv docRoot cs
  have hopened : (∀ ec, .signal ec ∉ cs) →
      (served docRoot cs).accepts = 1 ∧ (served docRoot cs).waits = 1 :=
    fun h => (served_waits docRoot cs).opened (served_open h)
  refine ⟨hopened, fun hidle => ?_⟩
  obtain ⟨haccepts, _, hpending⟩ := hidle.spec hs
  obtain ⟨ec, hsig⟩ : ∃ ec, .signal ec ∈ cs := by
    by_contra hno
    rw [not_exists] at hno
    have hone := (hopened hno).1
    omega
  have hclosed : (served docRoot cs).acceptorOpen = false := served_closed docRoot hsig
  have hmanaged : (served docRoot cs).managed = ∅ := hs.closed hclosed
  refine ⟨⟨ec, hsig⟩, hclosed, hmanaged, fun c hc => ?_⟩
  obtain ⟨id, hid⟩ := List.mem_iff_getElem?.mp hc
  obtain ⟨hinv, hmem⟩ := hs.connections id c hid
  have hstopped : c.stopped = true := by
    rw [← Bool.not_eq_false, ← hmem, hmanaged]
    exact Finset.notMem_empty id
  exact ⟨hpending c hc, hstopped, by rw [hinv.socket, hstopped]; rfl⟩

/-! ### After a signal -/

/-- The connection that a completion brings bytes to. -/
def Completion.readBack : Completion → Option Nat
  | .accept _ _ _ _  => none
  | .read id ec _ _  => if ec = .success then some id else none
  | .write _ _       => none
  | .signal _        => none

/-- A change of one entry changes the sum by its part. -/
theorem sum_map_modify {α : Type*} (g : α → Nat) (f : α → α) {l : List α} {i : Nat} {a : α}
    (h : l[i]? = some a) : ((l.modify i f).map g).sum + g a = (l.map g).sum + g (f a) := by
  induction l generalizing i with
  | nil => cases h
  | cons b l ih =>
    cases i with
    | zero =>
      obtain rfl : b = a := Option.some.inj h
      rw [List.modify_zero_cons, List.map_cons, List.map_cons, List.sum_cons, List.sum_cons]
      omega
    | succ i =>
      have := ih (i := i) h
      rw [List.modify_succ_cons, List.map_cons, List.map_cons, List.sum_cons, List.sum_cons]
      omega

/-- What one completion of a connection does to the number of outstanding operations. -/
theorem load_modify (hc : s.connections[id]? = some c) (f : Connection → Connection)
    (managed : Finset Nat) :
    Server.load { s with managed := managed, connections := s.connections.modify id f } +
      c.pending.length = s.load + (f c).pending.length := by
  have hsum := sum_map_modify (fun c : Connection => c.pending.length) f hc
  simp only [Server.load]
  omega

/-- A connection that awaits an operation awaits no other, and the handler starts one more if
    the operation is a successful read. -/
theorem Connection.Inv.length_pending (docRoot : Bytes) (hc : c.Inv) {isOp : Op → Bool}
    (hop : c.pending.any isOp = true) :
    c.pending.length = 1 ∧ (c.complete isOp).pending.length = 0 ∧
      (c.complete isOp).stop.pending.length = 0 ∧ ∀ files data,
        ((c.complete isOp).receive docRoot files data).pending.length = 1 := by
  have hnil : (c.complete isOp).pending = [] := hc.complete_pending hop
  have hne : c.pending ≠ [] := by
    intro h
    rw [h] at hop
    cases hop
  have hle : c.pending.length ≤ 1 := hc.pending_le
  refine ⟨?_, by rw [hnil, List.length_nil], ?_, fun files data => ?_⟩
  · have := List.length_pos_iff.mpr hne
    omega
  · show (c.complete isOp).pending.length = 0
    rw [hnil, List.length_nil]
  · obtain ⟨state, req, h | ⟨rep, h⟩⟩ := receive_cases docRoot files data (c.complete isOp)
    · rw [h]
      show ((c.complete isOp).pending ++ [Op.read]).length = 1
      rw [hnil, List.nil_append, List.length_singleton]
    · rw [h]
      show ((c.complete isOp).pending ++ [Op.write rep.toBuffers]).length = 1
      rw [hnil, List.nil_append, List.length_singleton]

/-- **Step lemma.**  Once the acceptor is closed, a completion is one operation less, unless it
    brings bytes: then another operation is started. -/
theorem load_step (docRoot : Bytes) (hs : s.Inv) (hw : s.Waits) (hclosed : s.acceptorOpen = false)
    {e : Completion}
    (he : s.delivers e = true) :
    (step docRoot s e).load + 1 = s.load + if e.readBack.isSome then 1 else 0 := by
  obtain ⟨haccepts, hwaits⟩ := hw.closed hclosed
  cases e with
  | accept ec major minor status =>
    have hone : s.accepts = 1 := by
      simp [Server.delivers] at he
      omega
    have hstep : step docRoot s (.accept ec major minor status) =
        { s with accepts := 0, socketOpen := s.socketOpen || decide (ec = .success) } := by
      simp [step, hone, Server.onAccept, hclosed]
    rw [hstep]
    simp [Server.load, Completion.readBack, hone]
    omega
  | read id ec data files =>
    obtain ⟨c, hc, hop⟩ := Server.awaits_iff.mp he
    obtain ⟨hbefore, hcomplete, hstop, hreceive⟩ :=
      (hs.connections id c hc).1.length_pending docRoot hop
    rw [step, if_pos (show s.awaits id Op.isRead = true from he), Server.onRead]
    by_cases hec : ec = .success
    · have hload := load_modify hc
        (Connection.receive docRoot files data ∘ Connection.complete Op.isRead) s.managed
      rw [← List.modify_modify_eq, Function.comp_apply, hbefore, hreceive] at hload
      rw [if_pos hec, show (Completion.read id ec data files).readBack = some id from if_pos hec]
      exact hload
    · rw [if_neg hec, show (Completion.read id ec data files).readBack = none from if_neg hec]
      by_cases habort : ec ≠ .operationAborted
      · have hload := load_modify hc (Connection.stop ∘ Connection.complete Op.isRead)
          (s.managed.erase id)
        rw [← List.modify_modify_eq, Function.comp_apply, hbefore, hstop] at hload
        rw [if_pos habort]
        exact hload
      · have hload := load_modify hc (Connection.complete Op.isRead) s.managed
        rw [hbefore, hcomplete] at hload
        rw [if_neg habort]
        exact hload
  | write id ec =>
    obtain ⟨c, hc, hop⟩ := Server.awaits_iff.mp he
    obtain ⟨hbefore, hcomplete, hstop, _⟩ :=
      (hs.connections id c hc).1.length_pending docRoot hop
    rw [step, if_pos (show s.awaits id Op.isWrite = true from he), Server.onWrite]
    by_cases habort : ec ≠ .operationAborted
    · have hload := load_modify hc (Connection.stop ∘ Connection.complete Op.isWrite)
        (s.managed.erase id)
      rw [← List.modify_modify_eq, Function.comp_apply, hbefore, hstop] at hload
      rw [if_pos habort]
      exact hload
    · have hload := load_modify hc (Connection.complete Op.isWrite) s.managed
      rw [hbefore, hcomplete] at hload
      rw [if_neg habort]
      exact hload
  | signal ec =>
    simp [Server.delivers, hwaits] at he

/-- All completions of a run are of operations outstanding at their time. -/
def Delivered (docRoot : Bytes) (s : Server) (es : List Completion) : Prop :=
  ∀ p ∈ history (step docRoot) s es, p.1.delivers p.2 = true

/-- A closed acceptor makes no connection. -/
theorem length_step_closed (hclosed : s.acceptorOpen = false) (e : Completion) :
    (step docRoot s e).connections.length = s.connections.length := by
  by_cases he : ∃ ec major minor status, e = .accept ec major minor status
  · obtain ⟨ec, major, minor, status, rfl⟩ := he
    rw [step]
    split_ifs
    · rfl
    · simp [Server.onAccept, hclosed]
  · exact length_step docRoot s e fun ec major minor status h => he ⟨ec, major, minor, status, h⟩

/-- **Run lemma.**  Once the acceptor is closed, the completions of a run are the operations that
    are gone after it, and the reads that were successful; these are of connections that were there
    before. -/
theorem load_foldl {es : List Completion} (hs : s.Inv) (hw : s.Waits)
    (hclosed : s.acceptorOpen = false) (hdel : Delivered docRoot s es) :
    (es.foldl (step docRoot) s).load + es.length =
        s.load + (es.filterMap Completion.readBack).length ∧
      ∀ id ∈ es.filterMap Completion.readBack, id < s.connections.length := by
  induction es generalizing s with
  | nil => exact ⟨rfl, fun id hid => absurd hid List.not_mem_nil⟩
  | cons e es ih =>
    have he : s.delivers e = true := hdel (s, e) List.mem_cons_self
    obtain ⟨hload, hids⟩ := ih (step_inv docRoot s e hs) (step_waits docRoot s e hw)
      (step_closed docRoot s e hclosed) fun p hp => hdel p (List.mem_cons_of_mem _ hp)
    have hstep := load_step docRoot hs hw hclosed he
    rw [length_step_closed hclosed] at hids
    rw [List.foldl_cons, List.length_cons]
    cases hback : e.readBack with
    | none =>
      rw [hback] at hstep
      rw [List.filterMap_cons_none hback]
      refine ⟨?_, hids⟩
      simp only [Option.isSome_none, Bool.false_eq_true, if_false] at hstep
      omega
    | some id =>
      rw [hback] at hstep
      rw [List.filterMap_cons_some hback, List.length_cons]
      refine ⟨?_, List.forall_mem_cons.mpr ⟨?_, hids⟩⟩
      · simp only [Option.isSome_some, if_true] at hstep
        omega
      · -- the read was awaited by a connection that is there
        cases e with
        | read j ec data files =>
          obtain ⟨c, hc, _⟩ := Server.awaits_iff.mp he
          rw [Completion.readBack, Option.ite_none_right_eq_some, Option.some.injEq] at hback
          rw [← hback.2]
          exact (List.getElem?_eq_some_iff.mp hc).1
        | accept ec major minor status => cases hback
        | write j ec => cases hback
        | signal ec => cases hback

/-- **Shutting down.**  After a signal, a connection may still be told of one successful read,
    which was under way when its socket was closed; an operation that is started on a closed
    socket fails.  Then at most two completions for each connection and one for the acceptor are
    left, in whatever order they come, and each but the successful reads is one operation less. -/
theorem shutdown_drains (docRoot : Bytes) {cs es : List Completion} (hsig : ∃ ec, .signal ec ∈ cs)
    (hdel : Delivered docRoot (served docRoot cs) es)
    (honce : (es.filterMap Completion.readBack).Nodup) :
    es.length ≤ 2 * (served docRoot cs).connections.length + 1 ∧
    (served docRoot (cs ++ es)).load + es.length =
      (served docRoot cs).load + (es.filterMap Completion.readBack).length := by
  obtain ⟨ec, hsig⟩ := hsig
  have hs : (served docRoot cs).Inv := served_inv docRoot cs
  have hw : (served docRoot cs).Waits := served_waits docRoot cs
  have hclosed : (served docRoot cs).acceptorOpen = false := served_closed docRoot hsig
  obtain ⟨hload, hids⟩ := load_foldl hs hw hclosed hdel
  -- at most one operation for each connection, and the accept, were outstanding
  have hstart : (served docRoot cs).load ≤ (served docRoot cs).connections.length + 1 := by
    have hsum : ((served docRoot cs).connections.map fun c => c.pending.length).sum ≤
        ((served docRoot cs).connections.map fun c => c.pending.length).length • 1 := by
      refine List.sum_le_card_nsmul _ 1 fun n hn => ?_
      obtain ⟨c, hc, rfl⟩ := List.mem_map.mp hn
      obtain ⟨id, hid⟩ := List.mem_iff_getElem?.mp hc
      exact (hs.connections id c hid).1.pending_le
    obtain ⟨haccepts, hwaits⟩ := hw.closed hclosed
    rw [List.length_map, smul_eq_mul, mul_one] at hsum
    rw [Server.load]
    omega
  -- at most one read for each connection brings bytes
  have hreads : (es.filterMap Completion.readBack).length ≤
      (served docRoot cs).connections.length := by
    have hsub : List.Subperm (es.filterMap Completion.readBack)
        (List.range (served docRoot cs).connections.length) :=
      honce.subperm fun id hid => List.mem_range.mpr (hids id hid)
    have hle := hsub.length_le
    rwa [List.length_range] at hle
  have hrun : served docRoot (cs ++ es) = es.foldl (step docRoot) (served docRoot cs) :=
    List.foldl_append
  rw [hrun]
  exact ⟨by omega, hload⟩

/-- A signal while one connection is being read and another is being answered. -/
def interrupted : List Completion :=
  [ .accept .success 0 0 .ok, .accept .success 0 0 .ok,
    .read 1 .success (ofString "GET / HTTP/1.0\r\n\r\n") fun _ => none, .signal .success ]

/-- What follows it: the accept is aborted, a read that had come in is answered, and both replies
    fail on closed sockets. -/
def leftovers : List Completion :=
  [ .accept .operationAborted 0 0 .ok, .write 1 .operationAborted,
    .read 0 .success (ofString "?") fun _ => none, .write 0 (.other 9) ]

theorem shutdown_drains_leftovers :
    leftovers.length ≤ 2 * (served (ofString "/") interrupted).connections.length + 1 ∧
    (served (ofString "/") (interrupted ++ leftovers)).load + leftovers.length =
      (served (ofString "/") interrupted).load +
        (leftovers.filterMap Completion.readBack).length :=
  shutdown_drains (ofString "/") ⟨.success, by simp [interrupted]⟩
    (by
      intro p hp
      simp only [leftovers, history_cons, history_nil, List.mem_cons, List.not_mem_nil, or_false]
        at hp
      rcases hp with rfl | rfl | rfl | rfl <;> decide +kernel)
    (by decide)

/-! ### Managed connections -/

/-- The completion says that an operation of connection `id` was cancelled. -/
def Completion.aborts (id : Nat) : Completion → Prop
  | .accept _ _ _ _  => False
  | .read j ec _ _   => j = id ∧ ec = .operationAborted
  | .write j ec      => j = id ∧ ec = .operationAborted
  | .signal _        => False

/-- A connection that has not been stopped has an operation outstanding, unless one of its
    operations has been cancelled. -/
theorem Connection.Inv.step_pending (hc : c.Inv) (hp : c.stopped = false → c.pending ≠ [])
    {e : Completion} {ev : Connection.Event} (hev : e.event id = some ev)
    (habort : e.aborts id → c.stopped = true) :
    (c.step docRoot ev).stopped = false → (c.step docRoot ev).pending ≠ [] := by
  cases e with
  | accept ec major minor status => cases hev
  | read j ec data files =>
    rw [Completion.event, Option.ite_none_right_eq_some, Option.some.injEq] at hev
    obtain ⟨rfl, rfl⟩ := hev
    rw [Connection.step]
    split_ifs with hop hec hno
    · -- the handler starts another operation
      intro _ hnil
      have hlen := (hc.length_pending docRoot hop).2.2.2 files data
      rw [hnil] at hlen
      cases hlen
    · intro h
      cases h
    · intro h
      rw [not_not] at hno
      have hstopped : c.stopped = true := habort ⟨rfl, hno⟩
      rw [show (c.complete Op.isRead).stopped = c.stopped from rfl, hstopped] at h
      cases h
    · exact hp
  | write j ec =>
    rw [Completion.event, Option.ite_none_right_eq_some, Option.some.injEq] at hev
    obtain ⟨rfl, rfl⟩ := hev
    rw [Connection.step]
    split_ifs with hop hno
    · intro h
      cases h
    · intro h
      rw [not_not] at hno
      have hstopped : c.stopped = true := habort ⟨rfl, hno⟩
      rw [show (c.complete Op.isWrite).stopped = c.stopped from rfl, hstopped] at h
      cases h
    · exact hp
  | signal ec =>
    rw [Completion.event, Option.some.injEq] at hev
    obtain rfl := hev
    intro h
    cases h

/-- **No connection is forgotten.**  In every run in which no operation of a managed connection is
    cancelled, as none is while its socket is open, every managed connection has exactly one
    operation outstanding, whose completion will bring it on or end it. -/
theorem managed_pending (docRoot : Bytes) {cs : List Completion}
    (habort : ∀ p ∈ history (step docRoot) Server.make cs, ∀ id, p.2.aborts id → id ∉ p.1.managed)
    {id : Nat} (hid : id ∈ (served docRoot cs).managed) :
    ∃ c op, (served docRoot cs).connections[id]? = some c ∧ c.socketOpen = true ∧
      c.pending = [op] := by
  have hpending : ∀ (id : Nat) (c : Connection), (served docRoot cs).connections[id]? = some c →
      c.stopped = false → c.pending ≠ [] := by
    clear hid
    induction cs using List.reverseRecOn with
    | nil =>
      intro id c hc
      cases hc
    | append_singleton cs e ih =>
      intro id c' hc'
      rw [history_concat] at habort
      have hs : (served docRoot cs).Inv := served_inv docRoot cs
      have ih := ih fun p hp => habort p (List.mem_append_left _ hp)
      have he := habort (served docRoot cs, e) (List.mem_append_right _ List.mem_cons_self)
      rw [served, List.foldl_append] at hc'
      replace hc' : (step docRoot (served docRoot cs) e).connections[id]? = some c' := hc'
      cases hbefore : (served docRoot cs).connections[id]? with
      | none =>
        obtain ⟨major, minor, status, -, -, rfl⟩ := step_made hbefore hc'
        exact fun _ hnil => List.cons_ne_nil _ _ hnil
      | some c =>
        rw [step_event hs hbefore, Option.some.injEq] at hc'
        obtain ⟨hinv, hmem⟩ := hs.connections id c hbefore
        rw [← hc']
        cases hev : e.event id with
        | none => exact ih id c hbefore
        | some ev =>
          refine hinv.step_pending (ih id c hbefore) hev fun h => ?_
          rw [← Bool.not_eq_false, ← hmem]
          exact he id h
  have hs : (served docRoot cs).Inv := served_inv docRoot cs
  obtain ⟨c, hc⟩ : ∃ c, (served docRoot cs).connections[id]? = some c :=
    ⟨_, List.getElem?_eq_getElem (hs.managed id hid)⟩
  obtain ⟨hinv, hmem⟩ := hs.connections id c hc
  have hstopped : c.stopped = false := hmem.mp hid
  obtain ⟨op, hop⟩ : ∃ op, c.pending = [op] := by
    have hpos := List.length_pos_iff.mpr (hpending id c hc hstopped)
    have hle := hinv.pending_le
    exact List.length_eq_one_iff.mp (by omega)
  exact ⟨c, op, hc, by rw [hinv.socket, hstopped]; rfl, hop⟩

/-- The second connection before the signal. -/
theorem managed_pending_second :
    ∃ c op, (served (ofString "/") (interrupted.take 3)).connections[1]? = some c ∧
      c.socketOpen = true ∧ c.pending = [op] := by
  refine managed_pending (ofString "/") (fun p hp id habort => ?_) (by decide +kernel)
  simp only [interrupted, List.take_succ_cons, List.take_zero, history_cons, history_nil,
    List.mem_cons, List.not_mem_nil, or_false] at hp
  rcases hp with rfl | rfl | rfl
  · exact habort.elim
  · exact habort.elim
  · cases habort.2

end OsgiManager.Http
