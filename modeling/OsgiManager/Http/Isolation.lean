import OsgiManager.Http.LifeCycle

namespace OsgiManager.Http

open OsgiManager.Lib

/-!
# One connection at a time

All handlers run on one thread and over one list of connections, but a handler reads and changes
no other connection than the one its completion is for.  A connection is therefore a machine of
its own, and the server is all of them side by side.

* `Connection.Event`, `Connection.step` — the machine of one connection;
* `Completion.event` — what a completion is to a given connection;
* `step_event` — a completion does to a connection what its own machine does;
* `served_project` — so does a run: after its accept, a connection has gone through its own
  events only.
-/

variable {docRoot : Bytes} {c c' : Connection} {s : Server} {id : Nat}

/-! ### The machine of one connection -/

/-- What a connection is told: the end of one of its operations, or to stop. -/
inductive Connection.Event where
  | read (ec : ErrorCode) (data : Bytes) (files : Bytes → Option Bytes)
  | write (ec : ErrorCode)
  | stop

/-- What a connection makes of it, in its own handlers. -/
def Connection.step (docRoot : Bytes) (c : Connection) : Connection.Event → Connection
  | .read ec data files =>
      if c.pending.any Op.isRead then
        if ec = .success then (c.complete Op.isRead).receive docRoot files data
        else if ec ≠ .operationAborted then (c.complete Op.isRead).stop
        else c.complete Op.isRead
      else c
  | .write ec =>
      if c.pending.any Op.isWrite then
        if ec ≠ .operationAborted then (c.complete Op.isWrite).stop else c.complete Op.isWrite
      else c
  | .stop => c.stop

/-- What a completion is to a connection, if it is anything to it. -/
def Completion.event (id : Nat) : Completion → Option Connection.Event
  | .accept _ _ _ _       => none
  | .read j ec data files => if j = id then some (.read ec data files) else none
  | .write j ec           => if j = id then some (.write ec) else none
  | .signal _             => some .stop

/-! ### One completion -/

/-- A connection that is stopped stays as it is when it is stopped again. -/
theorem Connection.Inv.stop_eq (hc : c.Inv) (h : c.stopped = true) : c.stop = c := by
  obtain ⟨socketOpen, parser, request, reply, pending, started, stopped, replies⟩ := c
  have hsocket : socketOpen = !stopped := hc.socket
  obtain rfl : stopped = true := h
  rw [Connection.stop, hsocket]
  rfl

/-- A change of one connection, as the others see it and as it does itself. -/
theorem getElem?_modify_of {f : Connection → Connection} {cs : List Connection} {j : Nat}
    (hc : cs[id]? = some c) : (cs.modify j f)[id]? = some (if j = id then f c else c) := by
  rw [List.getElem?_modify, hc]
  rfl

/-- Whether an operation is awaited can be asked of the connection. -/
theorem awaits_eq (hc : s.connections[id]? = some c) (isOp : Op → Bool) :
    s.awaits id isOp = c.pending.any isOp := by
  rw [Server.awaits, hc, Option.any_some]

/-- An accept leaves the connections as they are, or makes one that is started on an open
    socket. -/
theorem connections_accept (docRoot : Bytes) (s : Server) (ec : ErrorCode) (major minor : Int)
    (status : StatusType) :
    (step docRoot s (.accept ec major minor status)).connections = s.connections ∨
      ec = .success ∧ (step docRoot s (.accept ec major minor status)).connections =
        s.connections ++ [(Connection.make true major minor status).start] := by
  by_cases hnone : s.accepts = 0
  · exact .inl (by rw [step, if_pos hnone])
  rw [step, if_neg hnone]
  cases s.acceptorOpen with
  | false => exact .inl (by simp [Server.onAccept])
  | true =>
    by_cases hec : ec = .success
    · refine .inr ⟨hec, ?_⟩
      simp [Server.onAccept, hec, Server.start, Server.doAccept, List.modify_eq_take_drop]
    · exact .inl (by simp [Server.onAccept, hec, Server.doAccept])

/-- Only an accept makes connections. -/
theorem length_step (docRoot : Bytes) (s : Server) (e : Completion)
    (he : ∀ ec major minor status, e ≠ .accept ec major minor status) :
    (step docRoot s e).connections.length = s.connections.length := by
  cases e with
  | accept ec major minor status => exact absurd rfl (he ec major minor status)
  | read id ec data files =>
    rw [step]
    unfold Server.onRead
    split_ifs <;> simp [Server.complete, Server.stop]
  | write id ec =>
    rw [step]
    unfold Server.onWrite
    split_ifs <;> simp [Server.complete, Server.stop]
  | signal ec =>
    rw [step]
    split_ifs <;> simp [Server.onSignal, Server.stopAll]

/-- A connection that was not there before a completion has been made by it. -/
theorem step_made {e : Completion} (hnew : s.connections[id]? = none)
    (hc' : (step docRoot s e).connections[id]? = some c') :
    ∃ major minor status, e = .accept .success major minor status ∧ s.connections.length = id ∧
      c' = (Connection.make true major minor status).start := by
  have hle : s.connections.length ≤ id := List.getElem?_eq_none_iff.mp hnew
  have hlt : id < (step docRoot s e).connections.length := (List.getElem?_eq_some_iff.mp hc').1
  by_cases he : ∃ ec major minor status, e = .accept ec major minor status
  · obtain ⟨ec, major, minor, status, rfl⟩ := he
    rcases connections_accept docRoot s ec major minor status with hsame | ⟨rfl, hmade⟩
    · rw [hsame, hnew] at hc'
      cases hc'
    · rw [hmade, List.length_append, List.length_singleton] at hlt
      obtain rfl : s.connections.length = id := by omega
      rw [hmade, List.getElem?_concat_length, Option.some.injEq] at hc'
      exact ⟨major, minor, status, rfl, rfl, hc'.symm⟩
  · rw [length_step docRoot s e fun ec major minor status h => he ⟨ec, major, minor, status, h⟩]
      at hlt
    omega

/-- **Step lemma.**  A completion does to a connection what its own machine does with its part
    of the completion. -/
theorem step_event (hs : s.Inv) (hc : s.connections[id]? = some c) (e : Completion) :
    (step docRoot s e).connections[id]? =
      some ((e.event id).elim c (Connection.step docRoot c)) := by
  cases e with
  | accept ec major minor status =>
    rcases connections_accept docRoot s ec major minor status with hsame | ⟨_, hmade⟩
    · rw [hsame]
      exact hc
    · rw [hmade, List.getElem?_append_left (List.getElem?_eq_some_iff.mp hc).1]
      exact hc
  | read j ec data files =>
    rw [step, Completion.event]
    unfold Server.onRead Server.complete Server.stop
    by_cases hj : j = id
    · subst hj
      rw [if_pos rfl, Option.elim_some, Connection.step, awaits_eq hc]
      split_ifs
      · rw [getElem?_modify_of (getElem?_modify_of hc), if_pos rfl, if_pos rfl]
      · rw [getElem?_modify_of (getElem?_modify_of hc), if_pos rfl, if_pos rfl]
      · rw [getElem?_modify_of hc, if_pos rfl]
      · exact hc
    · rw [if_neg hj, Option.elim_none]
      split_ifs
      · rw [getElem?_modify_of (getElem?_modify_of hc), if_neg hj, if_neg hj]
      · rw [getElem?_modify_of (getElem?_modify_of hc), if_neg hj, if_neg hj]
      · rw [getElem?_modify_of hc, if_neg hj]
      · exact hc
  | write j ec =>
    rw [step, Completion.event]
    unfold Server.onWrite Server.complete Server.stop
    by_cases hj : j = id
    · subst hj
      rw [if_pos rfl, Option.elim_some, Connection.step, awaits_eq hc]
      split_ifs
      · rw [getElem?_modify_of (getElem?_modify_of hc), if_pos rfl, if_pos rfl]
      · rw [getElem?_modify_of hc, if_pos rfl]
      · exact hc
    · rw [if_neg hj, Option.elim_none]
      split_ifs
      · rw [getElem?_modify_of (getElem?_modify_of hc), if_neg hj, if_neg hj]
      · rw [getElem?_modify_of hc, if_neg hj]
      · exact hc
  | signal ec =>
    obtain ⟨hinv, hmem⟩ := hs.connections id c hc
    -- what is not managed has been stopped before
    have hidle : id ∉ s.managed → c.stop = c := fun h =>
      hinv.stop_eq (by rw [← Bool.not_eq_false, ← hmem]; exact h)
    rw [step, Completion.event, Option.elim_some, Connection.step]
    split_ifs with hnone
    · have hmanaged : s.managed = ∅ := hs.closed (hs.waiting hnone)
      rw [hc, hidle (by rw [hmanaged]; exact Finset.notMem_empty id)]
    · rw [Server.onSignal, Server.stopAll, List.getElem?_mapIdx]
      show Option.map _ s.connections[id]? = _
      rw [hc, Option.map_some]
      split_ifs with hid
      · rfl
      · rw [hidle hid]

/-! ### Runs -/

/-- **Isolation.**  In every run, a connection has been made by one accept, on an open socket,
    and is what its own machine makes of its own part of the completions after that: whatever the
    other connections are told, and in whatever order, leaves no trace in it. -/
theorem served_project (docRoot : Bytes) (cs : List Completion) (id : Nat) (c : Connection)
    (hc : (served docRoot cs).connections[id]? = some c) :
    ∃ before after major minor status,
      cs = before ++ .accept .success major minor status :: after ∧
      (served docRoot before).connections.length = id ∧
      c = (after.filterMap (Completion.event id)).foldl (Connection.step docRoot)
        (Connection.make true major minor status).start := by
  induction cs using List.reverseRecOn generalizing c with
  | nil => cases hc
  | append_singleton cs e ih =>
    rw [served, List.foldl_append] at hc
    cases hbefore : (served docRoot cs).connections[id]? with
    | none =>
      obtain ⟨major, minor, status, rfl, hlen, rfl⟩ := step_made hbefore hc
      exact ⟨cs, [], major, minor, status, rfl, hlen, rfl⟩
    | some d =>
      obtain ⟨before, after, major, minor, status, rfl, hlen, rfl⟩ := ih d hbefore
      refine ⟨before, after ++ [e], major, minor, status, by simp, hlen, ?_⟩
      have hstep := (step_event (served_inv docRoot _) hbefore e).symm.trans hc
      rw [Option.some.injEq] at hstep
      rw [← hstep, List.filterMap_append, List.foldl_append]
      cases hevent : e.event id <;> simp [hevent]

/-- Two connections, of which the first asks in two pieces, the second fails, and a signal stops
    what is left. -/
def crossed : List Completion :=
  [ .accept .success 1 2 .ok, .read 0 .success (ofString "GET ") fun _ => none,
    .accept .success 3 4 .ok, .read 1 (.other 104) [] fun _ => none,
    .read 0 .success (ofString "/ HTTP/1.0\r\n\r\n") fun _ => none, .signal .success ]

theorem served_project_crossed :
    ∃ c, (served (ofString "/") crossed).connections[0]? = some c ∧
      ∃ before after major minor status,
        crossed = before ++ .accept .success major minor status :: after ∧
        (served (ofString "/") before).connections.length = 0 ∧
        c = (after.filterMap (Completion.event 0)).foldl (Connection.step (ofString "/"))
          (Connection.make true major minor status).start := by
  obtain ⟨c, hc⟩ : ∃ c, (served (ofString "/") crossed).connections[0]? = some c :=
    Option.isSome_iff_exists.mp (by decide +kernel)
  exact ⟨c, hc, served_project (ofString "/") crossed 0 c hc⟩

end OsgiManager.Http
