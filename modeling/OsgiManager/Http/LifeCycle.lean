import OsgiManager.Http.Server
import OsgiManager.Lib.Run

namespace OsgiManager.Http

open OsgiManager.Lib

/-!
# The life of a connection

Whatever completions the server is told of, and in whatever order, a connection passes through
three phases: it reads, it writes its one reply, and it has nothing outstanding.

* `Connection.Phase`, `Connection.Inv` — the invariant of one connection;
* `Server.Inv` — the invariant of the server, which ties the connection manager to it;
* `step_inv`, `served_inv` — every completion keeps it, so every run does;
* `step_connection` — what one completion makes of each connection;
* `connection_life_cycle` — the life cycle, with the reply that stays put while it is sent and
    the manager that stays empty after the signal.
-/

variable {docRoot : Bytes} {c : Connection} {s : Server} {id : Nat}

/-! ### One connection -/

namespace Connection

/-- The phases of a connection. -/
inductive Phase (c : Connection) : Prop where
  | reading (pending : c.pending = [.read]) (replies : c.replies = 0)
  | writing (pending : c.pending = [.write c.reply.toBuffers]) (replies : c.replies = 1)
  | finished (pending : c.pending = []) (replies : c.replies ≤ 1)

/-- The invariant of a connection between two completions. -/
structure Inv (c : Connection) : Prop where
  phase : c.Phase
  started : c.started = true
  socket : c.socketOpen = !c.stopped

theorem inv_start (major minor : Int) (status : StatusType) :
    (make true major minor status).start.Inv where
  phase := .reading rfl rfl
  started := rfl
  socket := rfl

theorem Inv.pending_le (hc : c.Inv) : c.pending.length ≤ 1 := by
  cases hc.phase with
  | reading hp _ => rw [hp, List.length_singleton]
  | writing hp _ => rw [hp, List.length_singleton]
  | finished hp _ => rw [hp]; exact Nat.zero_le 1

theorem Inv.replies_le (hc : c.Inv) : c.replies ≤ 1 := by
  cases hc.phase with
  | reading _ hr => omega
  | writing _ hr => omega
  | finished _ hr => exact hr

theorem Inv.stop (hc : c.Inv) : c.stop.Inv where
  phase := by
    cases hc.phase with
    | reading hp hr => exact .reading hp hr
    | writing hp hr => exact .writing hp hr
    | finished hp hr => exact .finished hp hr
  started := hc.started
  socket := rfl

/-- The one operation outstanding is the one that completes. -/
theorem Inv.complete_pending (hc : c.Inv) {isOp : Op → Bool} (hop : c.pending.any isOp = true) :
    (c.complete isOp).pending = [] := by
  have hlen : (c.pending.eraseP isOp).length = c.pending.length - 1 := by
    obtain ⟨op, hmem, hisOp⟩ := List.any_eq_true.mp hop
    exact List.length_eraseP_of_mem hmem hisOp
  apply List.eq_nil_of_length_eq_zero
  have hle : c.pending.length ≤ 1 := hc.pending_le
  show (c.pending.eraseP isOp).length = 0
  omega

theorem Inv.complete (hc : c.Inv) {isOp : Op → Bool} (hop : c.pending.any isOp = true) :
    (c.complete isOp).Inv where
  phase := .finished (hc.complete_pending hop) hc.replies_le
  started := hc.started
  socket := hc.socket

/-- A connection that awaits a read has not replied. -/
theorem Inv.replies_eq_zero (hc : c.Inv) (hop : c.pending.any Op.isRead = true) :
    c.replies = 0 := by
  cases hc.phase with
  | reading hp hr => exact hr
  | writing hp hr => rw [hp] at hop; cases hop
  | finished hp hr => rw [hp] at hop; cases hop

/-- A connection that is sending its reply awaits no read. -/
theorem Inv.not_reading (hc : c.Inv) {buffers : List Bytes} (hw : .write buffers ∈ c.pending) :
    buffers = c.reply.toBuffers ∧ c.pending.any Op.isRead = false := by
  cases hc.phase with
  | reading hp hr =>
    rw [hp, List.mem_singleton] at hw
    cases hw
  | writing hp hr =>
    rw [hp, List.mem_singleton, Op.write.injEq] at hw
    rw [hp]
    exact ⟨hw, rfl⟩
  | finished hp hr =>
    rw [hp] at hw
    cases hw

/-- What a successful read leads to: another read, or the write of some reply. -/
theorem receive_cases (docRoot : Bytes) (files : Bytes → Option Bytes) (data : Bytes)
    (c : Connection) : ∃ state req,
      c.receive docRoot files data = { c with parser := state, request := req }.doRead ∨
      ∃ rep, c.receive docRoot files data =
        { c with parser := state, request := req, reply := rep }.doWrite := by
  unfold receive
  rcases parse (c.parser, c.request) data with ⟨verdict, ⟨state, req⟩, left⟩
  refine ⟨state, req, ?_⟩
  cases verdict with
  | good => exact .inr ⟨_, rfl⟩
  | bad => exact .inr ⟨_, rfl⟩
  | indeterminate => exact .inl rfl

/-- The handler of a successful read starts one operation, and a write only as the first. -/
theorem Inv.receive (hc : c.Inv) (hop : c.pending.any Op.isRead = true)
    (files : Bytes → Option Bytes) (data : Bytes) :
    ((c.complete Op.isRead).receive docRoot files data).Inv ∧
      ((c.complete Op.isRead).receive docRoot files data).stopped = c.stopped := by
  have hp : (c.complete Op.isRead).pending = [] := hc.complete_pending hop
  have hr : (c.complete Op.isRead).replies = 0 := hc.replies_eq_zero hop
  obtain ⟨state, req, h | ⟨rep, h⟩⟩ := receive_cases docRoot files data (c.complete Op.isRead)
  · rw [h]
    refine ⟨⟨.reading ?_ hr, hc.started, hc.socket⟩, rfl⟩
    show (c.complete Op.isRead).pending ++ [.read] = [.read]
    rw [hp, List.nil_append]
  · rw [h]
    refine ⟨⟨.writing ?_ ?_, hc.started, hc.socket⟩, rfl⟩
    · show (c.complete Op.isRead).pending ++ [.write rep.toBuffers] = [.write rep.toBuffers]
      rw [hp, List.nil_append]
    · show (c.complete Op.isRead).replies + 1 = 1
      omega

end Connection

/-! ### The server -/

namespace Server

/-- The invariant of the server between two completions. -/
structure Inv (s : Server) : Prop where
  /-- Each connection keeps its invariant, and is managed until it is stopped. -/
  connections : ∀ id c, s.connections[id]? = some c →
    c.Inv ∧ (id ∈ s.managed ↔ c.stopped = false)
  /-- Only connections that have been made are managed. -/
  managed : ∀ id ∈ s.managed, id < s.connections.length
  /-- Nothing is managed once the acceptor is closed. -/
  closed : s.acceptorOpen = false → s.managed = ∅
  /-- The wait for a signal is outstanding until the acceptor is closed. -/
  waiting : s.waits = 0 → s.acceptorOpen = false

theorem inv_make : make.Inv where
  connections := by
    intro id c hc
    cases hc
  managed := by
    intro id hid
    exact absurd hid (Finset.notMem_empty id)
  closed := fun _ => rfl
  waiting := by
    intro h
    cases h

/-- A change of one connection that keeps its invariant and does not stop it. -/
theorem Inv.update (hs : s.Inv) {f : Connection → Connection}
    (hf : ∀ c, s.connections[id]? = some c → (f c).Inv ∧ (f c).stopped = c.stopped) :
    { s with connections := s.connections.modify id f }.Inv where
  connections := by
    intro j d hd
    rw [List.getElem?_modify] at hd
    obtain ⟨c, hc, rfl⟩ := Option.map_eq_some_iff.mp hd
    obtain ⟨hinv, hmem⟩ := hs.connections j c hc
    by_cases hj : id = j
    · subst hj
      obtain ⟨hinv', hstopped⟩ := hf c hc
      rw [if_pos rfl, hstopped]
      exact ⟨hinv', hmem⟩
    · rw [if_neg hj]
      exact ⟨hinv, hmem⟩
  managed := by
    intro j hj
    show j < (s.connections.modify id f).length
    rw [List.length_modify]
    exact hs.managed j hj
  closed := hs.closed
  waiting := hs.waiting

/-- `connection_manager::stop`, also of a connection that is stopped already. -/
theorem Inv.stop (hs : s.Inv) (id : Nat) : (s.stop id).Inv where
  connections := by
    intro j d hd
    rw [Server.stop, List.getElem?_modify] at hd
    obtain ⟨c, hc, rfl⟩ := Option.map_eq_some_iff.mp hd
    obtain ⟨hinv, hmem⟩ := hs.connections j c hc
    show _ ∧ (j ∈ s.managed.erase id ↔ _)
    rw [Finset.mem_erase]
    by_cases hj : id = j
    · -- the connection stopped leaves the set
      rw [if_pos hj]
      refine ⟨hinv.stop, ?_⟩
      exact iff_of_false (fun h => h.1 hj.symm) (fun h => Bool.noConfusion h)
    · rw [if_neg hj]
      refine ⟨hinv, ?_⟩
      rw [and_iff_right (Ne.symm hj)]
      exact hmem
  managed := by
    intro j hj
    show j < (s.connections.modify id Connection.stop).length
    rw [List.length_modify]
    exact hs.managed j (Finset.mem_of_mem_erase hj)
  closed := by
    intro h
    show s.managed.erase id = ∅
    rw [hs.closed h, Finset.erase_empty]
  waiting := hs.waiting

theorem Inv.onSignal (hs : s.Inv) : s.onSignal.Inv where
  connections := by
    intro j d hd
    rw [Server.onSignal, stopAll, List.getElem?_mapIdx] at hd
    obtain ⟨c, hc, rfl⟩ := Option.map_eq_some_iff.mp hd
    obtain ⟨hinv, hmem⟩ := hs.connections j c hc
    show _ ∧ (j ∈ (∅ : Finset Nat) ↔ _)
    by_cases hj : j ∈ s.managed
    · rw [if_pos hj]
      exact ⟨hinv.stop, iff_of_false (Finset.notMem_empty j) (fun h => Bool.noConfusion h)⟩
    · -- what is not managed was stopped before
      rw [if_neg hj]
      exact ⟨hinv, iff_of_false (Finset.notMem_empty j) (fun h => hj (hmem.mpr h))⟩
  managed := by
    intro j hj
    exact absurd hj (Finset.notMem_empty j)
  closed := fun _ => rfl
  waiting := fun _ => rfl

/-- The connection a successful accept makes is managed from the start. -/
theorem Inv.onAccept_success (hs : s.Inv) (hopen : s.acceptorOpen = true)
    (hsocket : s.socketOpen = true) (major minor : Int) (status : StatusType) :
    (s.onAccept .success major minor status).Inv := by
  have hlen : s.connections.length ∉ s.managed := fun h => lt_irrefl _ (hs.managed _ h)
  have heq : s.onAccept .success major minor status =
      { s with
        socketOpen := false
        accepts := s.accepts + 1
        managed := insert s.connections.length s.managed
        connections := s.connections ++ [(Connection.make true major minor status).start] } := by
    simp only [onAccept, hopen, hsocket, Bool.not_true, Bool.false_eq_true, if_false, if_true,
      Server.start, doAccept, List.modify_eq_take_drop, List.take_left, List.drop_left,
      List.modifyHead_cons]
  rw [heq]
  refine ⟨?_, ?_, ?_, hs.waiting⟩
  · intro j d hd
    show _ ∧ (j ∈ insert s.connections.length s.managed ↔ _)
    rw [Finset.mem_insert]
    rcases lt_trichotomy j s.connections.length with hj | rfl | hj
    · -- a connection made before
      rw [List.getElem?_append_left hj] at hd
      obtain ⟨hinv, hmem⟩ := hs.connections j d hd
      refine ⟨hinv, ?_⟩
      rw [or_iff_right hj.ne]
      exact hmem
    · -- the connection just made
      rw [List.getElem?_concat_length, Option.some.injEq] at hd
      subst hd
      exact ⟨Connection.inv_start major minor status, iff_of_true (.inl rfl) rfl⟩
    · rw [List.getElem?_eq_none (by rw [List.length_append, List.length_singleton]; omega)] at hd
      cases hd
  · intro j hj
    rw [List.length_append, List.length_singleton]
    rcases Finset.mem_insert.mp hj with rfl | hj
    · omega
    · have := hs.managed j hj
      omega
  · intro h
    rw [hopen] at h
    cases h

/-- Without a success, or with the acceptor closed, an accept changes no connection. -/
theorem Inv.onAccept (hs : s.Inv) {ec : ErrorCode} (hsocket : ec = .success → s.socketOpen = true)
    (major minor : Int) (status : StatusType) : (s.onAccept ec major minor status).Inv := by
  by_cases hopen : s.acceptorOpen = true
  · by_cases hec : ec = .success
    · subst hec
      exact hs.onAccept_success hopen (hsocket rfl) major minor status
    · rw [Server.onAccept, hopen, if_neg (by decide), if_neg hec]
      exact ⟨hs.connections, hs.managed, hs.closed, hs.waiting⟩
  · rw [Bool.not_eq_true] at hopen
    rw [Server.onAccept, hopen, if_pos (by decide)]
    exact hs

/-- What is awaited is outstanding at a connection. -/
theorem awaits_iff {isOp : Op → Bool} :
    s.awaits id isOp = true ↔ ∃ c, s.connections[id]? = some c ∧ c.pending.any isOp = true := by
  rw [awaits, Option.any_eq_true]

theorem Inv.complete (hs : s.Inv) {isOp : Op → Bool} (hop : s.awaits id isOp = true) :
    (s.complete id isOp).Inv := by
  obtain ⟨c, hc, hop⟩ := awaits_iff.mp hop
  apply hs.update
  intro d hd
  obtain rfl : c = d := Option.some.inj (hc.symm.trans hd)
  exact ⟨(hs.connections id c hc).1.complete hop, rfl⟩

theorem Inv.onRead (hs : s.Inv) (hop : s.awaits id Op.isRead = true) (ec : ErrorCode)
    (data : Bytes) (files : Bytes → Option Bytes) :
    ((s.complete id Op.isRead).onRead docRoot id ec data files).Inv := by
  unfold Server.onRead
  split_ifs with hec habort
  · -- taking the operation and the handler together change one connection
    obtain ⟨c, hc, hop⟩ := awaits_iff.mp hop
    rw [Server.complete, List.modify_modify_eq]
    apply hs.update
    intro d hd
    obtain rfl : c = d := Option.some.inj (hc.symm.trans hd)
    exact (hs.connections id c hc).1.receive hop files data
  · exact (hs.complete hop).stop id
  · exact hs.complete hop

theorem Inv.onWrite (hs : s.Inv) (id : Nat) (ec : ErrorCode) : (s.onWrite id ec).Inv := by
  unfold Server.onWrite
  split_ifs with habort
  · exact hs.stop id
  · exact hs

end Server

/-- **The step lemma.**  Every completion keeps the invariant. -/
theorem step_inv (docRoot : Bytes) (s : Server) (e : Completion) (hs : s.Inv) :
    (step docRoot s e).Inv := by
  cases e with
  | accept ec major minor status =>
    rw [step]
    split_ifs with hnone
    · exact hs
    · apply Server.Inv.onAccept
      · exact ⟨hs.connections, hs.managed, hs.closed, hs.waiting⟩
      · intro hec
        show (s.socketOpen || decide (ec = .success)) = true
        rw [hec, decide_eq_true rfl, Bool.or_true]
  | read id ec data files =>
    rw [step]
    split_ifs with hop
    · exact hs.onRead hop ec data files
    · exact hs
  | write id ec =>
    rw [step]
    split_ifs with hop
    · exact (hs.complete hop).onWrite id ec
    · exact hs
  | signal ec =>
    rw [step]
    split_ifs with hnone
    · exact hs
    · exact ⟨hs.onSignal.connections, hs.onSignal.managed, hs.onSignal.closed, fun _ => rfl⟩

/-- **The run lemma.** -/
theorem served_inv (docRoot : Bytes) (cs : List Completion) : (served docRoot cs).Inv :=
  foldl_invariant (step_inv docRoot) Server.inv_make cs

/-! ### What a completion does to a connection -/

/-- Two states of a connection with nothing answered in between. -/
structure Connection.SameAnswer (c c' : Connection) : Prop where
  request : c'.request = c.request
  reply : c'.reply = c.reply
  replies : c'.replies = c.replies

/-- What a completion makes of a connection that is there after it. -/
inductive Connection.Step (docRoot : Bytes) (s : Server) (e : Completion) (id : Nat)
    (c' : Connection) : Prop
  /-- The connection has just been made. -/
  | made {socketOpen : Bool} {major minor : Int} {status : StatusType}
      (new : s.connections[id]? = none)
      (fresh : c' = (Connection.make socketOpen major minor status).start)
  /-- The connection was there, and no bytes have reached it. -/
  | kept {c : Connection} (before : s.connections[id]? = some c) (same : c.SameAnswer c')
  /-- The completion has brought bytes for the connection. -/
  | received {c : Connection} {data : Bytes} {files : Bytes → Option Bytes}
      (before : s.connections[id]? = some c) (read : e = .read id .success data files)
      (awaited : c.pending.any Op.isRead = true)
      (after : c' = (c.complete Op.isRead).receive docRoot files data)

theorem Connection.SameAnswer.trans {c'' : Connection} (h : c.SameAnswer c')
    (h' : c'.SameAnswer c'') : c.SameAnswer c'' :=
  ⟨h'.request.trans h.request, h'.reply.trans h.reply, h'.replies.trans h.replies⟩

/-- A change of one connection that answers nothing changes no answer. -/
theorem sameAnswer_modify {f : Connection → Connection}
    (hf : ∀ c : Connection, c.SameAnswer (f c)) {j : Nat}
    (hc' : (s.connections.modify id f)[j]? = some c') :
    ∃ c, s.connections[j]? = some c ∧ c.SameAnswer c' := by
  rw [List.getElem?_modify] at hc'
  obtain ⟨c, hc, rfl⟩ := Option.map_eq_some_iff.mp hc'
  refine ⟨c, hc, ?_⟩
  show c.SameAnswer (if id = j then f c else c)
  split_ifs
  · exact hf c
  · exact ⟨rfl, rfl, rfl⟩

theorem sameAnswer_complete {isOp : Op → Bool} {j : Nat}
    (hc' : (s.complete id isOp).connections[j]? = some c') :
    ∃ c, s.connections[j]? = some c ∧ c.SameAnswer c' :=
  sameAnswer_modify (f := Connection.complete isOp) (fun _ => ⟨rfl, rfl, rfl⟩) hc'

theorem sameAnswer_stop {j : Nat} (hc' : (s.stop id).connections[j]? = some c') :
    ∃ c, s.connections[j]? = some c ∧ c.SameAnswer c' :=
  sameAnswer_modify (f := Connection.stop) (fun _ => ⟨rfl, rfl, rfl⟩) hc'

theorem sameAnswer_onSignal {j : Nat} (hc' : s.onSignal.connections[j]? = some c') :
    ∃ c, s.connections[j]? = some c ∧ c.SameAnswer c' := by
  rw [Server.onSignal, Server.stopAll, List.getElem?_mapIdx] at hc'
  obtain ⟨c, hc, rfl⟩ := Option.map_eq_some_iff.mp hc'
  refine ⟨c, hc, ?_⟩
  show c.SameAnswer (if j ∈ s.managed then c.stop else c)
  split_ifs
  · exact ⟨rfl, rfl, rfl⟩
  · exact ⟨rfl, rfl, rfl⟩

/-- Past the connections there are, an accept leaves the one it has made. -/
theorem onAccept_connections {ec : ErrorCode} {major minor : Int} {status : StatusType} {j : Nat}
    (hc' : (s.onAccept ec major minor status).connections[j]? = some c') :
    s.connections[j]? = some c' ∨ s.connections[j]? = none ∧
      c' = (Connection.make s.socketOpen major minor status).start := by
  unfold Server.onAccept at hc'
  split_ifs at hc' with hclosed hec
  · exact .inl hc'
  · have hlist : (s.connections ++ [Connection.make s.socketOpen major minor status]).modify
        s.connections.length Connection.start =
        s.connections ++ [(Connection.make s.socketOpen major minor status).start] := by
      simp [List.modify_eq_take_drop]
    replace hc' : ((s.connections ++ [Connection.make s.socketOpen major minor status]).modify
        s.connections.length Connection.start)[j]? = some c' := hc'
    rw [hlist, List.getElem?_append] at hc'
    split_ifs at hc' with hj
    · exact .inl hc'
    · obtain ⟨_, hd⟩ := List.getElem?_eq_some_iff.mp hc'
      rw [List.getElem_singleton] at hd
      exact .inr ⟨List.getElem?_eq_none (not_lt.mp hj), hd.symm⟩
  · exact .inl hc'

/-- **What one completion does to the connections.** -/
theorem step_connection {e : Completion} (hc' : (step docRoot s e).connections[id]? = some c') :
    Connection.Step docRoot s e id c' := by
  have kept : (∃ c, s.connections[id]? = some c ∧ c.SameAnswer c') →
      Connection.Step docRoot s e id c' := fun ⟨c, hc, hsame⟩ => .kept hc hsame
  have same : s.connections[id]? = some c' → Connection.Step docRoot s e id c' :=
    fun hc => .kept hc ⟨rfl, rfl, rfl⟩
  cases e with
  | accept ec major minor status =>
    rw [step] at hc'
    split_ifs at hc' with hnone
    · exact same hc'
    · rcases onAccept_connections hc' with hc | ⟨hnew, hfresh⟩
      · exact same hc
      · exact .made hnew hfresh
  | read j ec data files =>
    rw [step] at hc'
    split_ifs at hc' with hop
    · unfold Server.onRead at hc'
      split_ifs at hc' with hec habort
      · by_cases hj : j = id
        · -- the handler runs after the operation has been taken off
          subst hj hec
          obtain ⟨c, hc, hop⟩ := Server.awaits_iff.mp hop
          refine .received hc rfl hop ?_
          replace hc' : ((s.connections.modify j (Connection.complete Op.isRead)).modify j
            (Connection.receive docRoot files data))[j]? = some c' := hc'
          rw [List.getElem?_modify_eq, List.getElem?_modify_eq, hc] at hc'
          exact (Option.some.inj hc').symm
        · replace hc' : ((s.complete j Op.isRead).connections.modify j
            (Connection.receive docRoot files data))[id]? = some c' := hc'
          rw [List.getElem?_modify_ne _ _ hj] at hc'
          exact kept (sameAnswer_complete hc')
      · obtain ⟨d, hd, hsame⟩ := sameAnswer_stop hc'
        obtain ⟨c, hc, hsame'⟩ := sameAnswer_complete hd
        exact .kept hc (hsame'.trans hsame)
      · exact kept (sameAnswer_complete hc')
    · exact same hc'
  | write j ec =>
    rw [step] at hc'
    split_ifs at hc' with hop
    · unfold Server.onWrite at hc'
      split_ifs at hc' with habort
      · obtain ⟨d, hd, hsame⟩ := sameAnswer_stop hc'
        obtain ⟨c, hc, hsame'⟩ := sameAnswer_complete hd
        exact .kept hc (hsame'.trans hsame)
      · exact kept (sameAnswer_complete hc')
    · exact same hc'
  | signal ec =>
    rw [step] at hc'
    split_ifs at hc' with hnone
    · exact same hc'
    · exact kept (sameAnswer_onSignal hc')

theorem length_le_onAccept (s : Server) (ec : ErrorCode) (major minor : Int) (status : StatusType) :
    s.connections.length ≤ (s.onAccept ec major minor status).connections.length := by
  unfold Server.onAccept
  split_ifs <;> simp [Server.start, Server.doAccept]

/-- No connection is taken from the list. -/
theorem length_le_step (docRoot : Bytes) (s : Server) (e : Completion) :
    s.connections.length ≤ (step docRoot s e).connections.length := by
  cases e with
  | accept ec major minor status =>
    rw [step]
    split_ifs
    · exact Nat.le_refl _
    · let opened := s.socketOpen || decide (ec = .success)
      exact length_le_onAccept { s with accepts := s.accepts - 1, socketOpen := opened } ec major
        minor status
  | read j ec data files =>
    rw [step]
    unfold Server.onRead
    split_ifs <;> simp [Server.complete, Server.stop]
  | write j ec =>
    rw [step]
    unfold Server.onWrite
    split_ifs <;> simp [Server.complete, Server.stop]
  | signal ec =>
    rw [step]
    split_ifs <;> simp [Server.onSignal, Server.stopAll]

/-! ### The reply that is being sent -/

/-- The reply of a connection that has been made. -/
def Server.replyOf (s : Server) (id : Nat) : Option Reply := s.connections[id]?.map Connection.reply

/-- **The reply stays put.**  No completion changes a reply that is being sent. -/
theorem step_replyOf (docRoot : Bytes) (hs : s.Inv) (hc : s.connections[id]? = some c)
    {buffers : List Bytes} (hw : .write buffers ∈ c.pending) (e : Completion) :
    (step docRoot s e).replyOf id = some c.reply := by
  obtain ⟨c', hc'⟩ : ∃ c', (step docRoot s e).connections[id]? = some c' := by
    have hlen : id < s.connections.length := (List.getElem?_eq_some_iff.mp hc).1
    have hle : s.connections.length ≤ (step docRoot s e).connections.length :=
      length_le_step docRoot s e
    exact ⟨_, List.getElem?_eq_getElem (by omega)⟩
  rw [Server.replyOf, hc', Option.map_some, Option.some.injEq]
  cases step_connection hc' with
  | made new _ =>
    rw [hc] at new
    cases new
  | kept before same =>
    obtain rfl := Option.some.inj (hc.symm.trans before)
    exact same.reply
  | received before _ awaited _ =>
    -- the connection itself awaits no read
    obtain rfl := Option.some.inj (hc.symm.trans before)
    rw [((hs.connections id c hc).1.not_reading hw).2] at awaited
    cases awaited

/-! ### After the signal -/

/-- No handler opens the acceptor again. -/
theorem step_closed (docRoot : Bytes) (s : Server) (e : Completion)
    (hclosed : s.acceptorOpen = false) : (step docRoot s e).acceptorOpen = false := by
  cases e with
  | accept ec major minor status =>
    rw [step]
    split_ifs with hnone
    · exact hclosed
    · rw [Server.onAccept, if_pos (by rw [hclosed]; rfl)]
      exact hclosed
  | read id ec data files =>
    rw [step]
    unfold Server.onRead
    split_ifs <;> exact hclosed
  | write id ec =>
    rw [step]
    unfold Server.onWrite
    split_ifs <;> exact hclosed
  | signal ec =>
    rw [step]
    split_ifs with hnone
    · exact hclosed
    · rfl

/-- The signal closes the acceptor. -/
theorem step_signal (docRoot : Bytes) (hs : s.Inv) (ec : ErrorCode) :
    (step docRoot s (.signal ec)).acceptorOpen = false := by
  rw [step]
  split_ifs with hnone
  · exact hs.waiting hnone
  · rfl

/-- **Once told of a signal, the server stays closed.** -/
theorem served_closed (docRoot : Bytes) {cs : List Completion} {ec : ErrorCode}
    (hsig : .signal ec ∈ cs) : (served docRoot cs).acceptorOpen = false := by
  -- the run up to the signal, the signal, and the rest, in which nothing opens the acceptor
  obtain ⟨before, after, rfl⟩ := List.append_of_mem hsig
  rw [served, List.foldl_append, List.foldl_cons]
  exact foldl_invariant (step_closed docRoot) (step_signal docRoot (served_inv docRoot before) ec)
    after

/-! ### The life cycle -/

/-- **The life of a connection.**  After any completions: a connection has at most one
    operation outstanding and has started at most one reply; a reply being sent is the one the
    write was started on, and no completion changes it; a connection is managed exactly when it
    has been started and not stopped, and then its socket is open.  After a signal no
    connection is managed. -/
theorem connection_life_cycle (docRoot : Bytes) (cs : List Completion) :
    (∀ id c, (served docRoot cs).connections[id]? = some c →
      c.pending.length ≤ 1 ∧ c.replies ≤ 1 ∧
      (∀ buffers, .write buffers ∈ c.pending → buffers = c.reply.toBuffers ∧
        ∀ e, (step docRoot (served docRoot cs) e).replyOf id = some c.reply) ∧
      (id ∈ (served docRoot cs).managed ↔ c.started = true ∧ c.stopped = false) ∧
      (id ∈ (served docRoot cs).managed → c.socketOpen = true)) ∧
    (∀ id ∈ (served docRoot cs).managed, id < (served docRoot cs).connections.length) ∧
    ((∃ ec, .signal ec ∈ cs) →
      (served docRoot cs).acceptorOpen = false ∧ (served docRoot cs).managed = ∅) := by
  have hs : (served docRoot cs).Inv := served_inv docRoot cs
  refine ⟨?_, hs.managed, ?_⟩
  · intro id c hc
    obtain ⟨hinv, hmem⟩ := hs.connections id c hc
    refine ⟨hinv.pending_le, hinv.replies_le, ?_, ?_, ?_⟩
    · intro buffers hw
      exact ⟨(hinv.not_reading hw).1, step_replyOf docRoot hs hc hw⟩
    · rw [hmem, hinv.started]
      exact (and_iff_right rfl).symm
    · intro hid
      rw [hinv.socket, hmem.mp hid]
      rfl
  · rintro ⟨ec, hsig⟩
    have hclosed : (served docRoot cs).acceptorOpen = false := served_closed docRoot hsig
    exact ⟨hclosed, hs.closed hclosed⟩

end OsgiManager.Http
