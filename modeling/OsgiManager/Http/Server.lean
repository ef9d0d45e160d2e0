import OsgiManager.Http.RequestHandler
import OsgiManager.Http.RequestParser
import Mathlib.Data.Finset.Basic

namespace OsgiManager.Http

open OsgiManager.Lib

/-!
# The server

`server`, `connection_manager` and `connection` are one program of completion handlers: an
`io_service` on one thread delivers the completions of the operations they have started, and a
handler starts further operations.  The model keeps the state of the three classes together
with the outstanding operations, and `step` delivers one completion.

* `Connection` — a connection, with what has become of it so far;
* `Server` — the server, its connection manager, and every connection it has made; a
  connection is known by its number, in the order of their making;
* `Completion`, `step` — what is delivered, and the handler that takes it.

Any outstanding operation may complete at any time and with any error code, so a stopped
connection may still be told of a success.  A completion of an operation that is not
outstanding is never delivered: `step` ignores it.  Closing a socket does not fail.
-/

/-- `boost::system::error_code`, as far as the handlers tell one from another. -/
inductive ErrorCode where
  | success
  | operationAborted
  | other (value : Int)
deriving DecidableEq

/-! ### Connections -/

/-- An outstanding operation of a connection.  A write carries what its buffers held when it
    was started. -/
inductive Op where
  | read
  | write (buffers : List Bytes)
deriving DecidableEq

/-- Is this the operation of `async_read_some`? -/
def Op.isRead : Op → Bool
  | .read    => true
  | .write _ => false

/-- Is this the operation of `async_write`? -/
def Op.isWrite (op : Op) : Bool := !op.isRead

/-- `connection`.  The last four fields are not in the source: the outstanding operations,
    whether `start` and `stop` have been called, and how often `do_write` has. -/
structure Connection where
  socketOpen : Bool
  parser : State
  request : Request
  reply : Reply
  pending : List Op
  started : Bool
  stopped : Bool
  replies : Nat
deriving DecidableEq

namespace Connection

/-- The constructor, on the socket it is given.  The two versions of the request and the
    status of the reply are not initialised, and are whatever is in memory. -/
def make (socketOpen : Bool) (major minor : Int) (status : StatusType) : Connection where
  socketOpen := socketOpen
  parser     := .methodStart
  request    := .empty major minor
  reply      := ⟨status, [], []⟩
  pending    := []
  started    := false
  stopped    := false
  replies    := 0

/-- `do_read`. -/
def doRead (c : Connection) : Connection := { c with pending := c.pending ++ [.read] }

/-- `do_write`. -/
def doWrite (c : Connection) : Connection :=
  { c with pending := c.pending ++ [.write c.reply.toBuffers], replies := c.replies + 1 }

/-- `connection::start`. -/
def start (c : Connection) : Connection := { c with started := true }.doRead

/-- `connection::stop`. -/
def stop (c : Connection) : Connection := { c with socketOpen := false, stopped := true }

/-- The operation is no longer outstanding once its handler is called. -/
def complete (isOp : Op → Bool) (c : Connection) : Connection :=
  { c with pending := c.pending.eraseP isOp }

/-- The handler of a successful read, on the bytes it brought. -/
def receive (docRoot : Bytes) (files : Bytes → Option Bytes) (data : Bytes) (c : Connection) :
    Connection :=
  match parse (c.parser, c.request) data with
  | (.good, (state, req), _) =>
      { c with parser := state, request := req, reply := handleRequest files docRoot req c.reply
        }.doWrite
  | (.bad, (state, req), _) =>
      { c with parser := state, request := req, reply := stockReply .badRequest }.doWrite
  | (.indeterminate, (state, req), _) => { c with parser := state, request := req }.doRead

end Connection

/-! ### The server -/

/-- `server`, with its `connection_manager`.  The counts are of outstanding operations:
    accepts of the acceptor, and waits for a signal. -/
structure Server where
  acceptorOpen : Bool
  socketOpen : Bool
  accepts : Nat
  waits : Nat
  managed : Finset Nat
  connections : List Connection
deriving DecidableEq

namespace Server

/-- `do_accept`. -/
def doAccept (s : Server) : Server := { s with accepts := s.accepts + 1 }

/-- `do_await_stop`. -/
def doAwaitStop (s : Server) : Server := { s with waits := s.waits + 1 }

/-- The constructor, where nothing in it throws. -/
def make : Server :=
  let fresh : Server := ⟨false, false, 0, 0, ∅, []⟩
  { fresh.doAwaitStop with acceptorOpen := true }.doAccept

/-- `connection_manager::start`. -/
def start (s : Server) (id : Nat) : Server :=
  { s with managed := insert id s.managed
           connections := s.connections.modify id Connection.start }

/-- `connection_manager::stop`. -/
def stop (s : Server) (id : Nat) : Server :=
  { s with managed := s.managed.erase id
           connections := s.connections.modify id Connection.stop }

/-- `connection_manager::stop_all`. -/
def stopAll (s : Server) : Server :=
  { s with managed := ∅
           connections := s.connections.mapIdx fun id c => if id ∈ s.managed then c.stop else c }

/-! ### The handlers -/

/-- The handler of an accept.  The connection it makes takes the accepted socket. -/
def onAccept (s : Server) (ec : ErrorCode) (major minor : Int) (status : StatusType) : Server :=
  -- stopped by a signal before this handler had a chance to run
  if !s.acceptorOpen then s
  else if ec = .success then
    let c := Connection.make s.socketOpen major minor status
    let s' := { s with connections := s.connections ++ [c], socketOpen := false }
    (s'.start s.connections.length).doAccept
  else s.doAccept

/-- The handler of a read. -/
def onRead (docRoot : Bytes) (s : Server) (id : Nat) (ec : ErrorCode) (data : Bytes)
    (files : Bytes → Option Bytes) : Server :=
  if ec = .success then
    { s with connections := s.connections.modify id (Connection.receive docRoot files data) }
  else if ec ≠ .operationAborted then s.stop id
  -- an aborted read belongs to a connection that is being stopped by someone else
  else s

/-- The handler of a write.  After a success it also shuts the connection down in both
    directions, which leaves the socket open. -/
def onWrite (s : Server) (id : Nat) (ec : ErrorCode) : Server :=
  if ec ≠ .operationAborted then s.stop id else s

/-- The handler of a signal, which ignores the error code. -/
def onSignal (s : Server) : Server := { s with acceptorOpen := false }.stopAll

/-- Is such an operation of the connection outstanding? -/
def awaits (s : Server) (id : Nat) (isOp : Op → Bool) : Bool :=
  s.connections[id]?.any fun c => c.pending.any isOp

/-- The operation of the connection is taken from those outstanding. -/
def complete (s : Server) (id : Nat) (isOp : Op → Bool) : Server :=
  { s with connections := s.connections.modify id (Connection.complete isOp) }

end Server

/-- A completion: the operation, its error code, and what the handler finds: the memory a new
    connection is made in, the bytes read, the files at that time. -/
inductive Completion where
  | accept (ec : ErrorCode) (major minor : Int) (status : StatusType)
  | read (id : Nat) (ec : ErrorCode) (data : Bytes) (files : Bytes → Option Bytes)
  | write (id : Nat) (ec : ErrorCode)
  | signal (ec : ErrorCode)

/-- One completion is delivered. -/
def step (docRoot : Bytes) (s : Server) : Completion → Server
  | .accept ec major minor status =>
      if s.accepts = 0 then s
      else
        -- a successful accept has opened the socket it was given
        let opened := s.socketOpen || decide (ec = .success)
        { s with accepts := s.accepts - 1, socketOpen := opened }.onAccept ec major minor status
  | .read id ec data files =>
      if s.awaits id Op.isRead then (s.complete id Op.isRead).onRead docRoot id ec data files
      else s
  | .write id ec =>
      if s.awaits id Op.isWrite then (s.complete id Op.isWrite).onWrite id ec else s
  | .signal _ => if s.waits = 0 then s else { s with waits := s.waits - 1 }.onSignal

/-- The server after the completions delivered to it so far. -/
def served (docRoot : Bytes) (cs : List Completion) : Server :=
  cs.foldl (step docRoot) Server.make

-- a success that was queued for a read before the signal still starts a reply
example :
    let s := served (ofString "/www")
      [ .accept .success 7 7 .ok, .signal .success,
        .read 0 .success (ofString "GET / HTTP/1.0\r\n\r\n") fun _ => none ]
    s.managed = ∅ ∧ s.connections.map (fun c => (c.socketOpen, c.pending)) =
      [(false, [.write (stockReply .notFound).toBuffers])] := by decide +kernel

end OsgiManager.Http
