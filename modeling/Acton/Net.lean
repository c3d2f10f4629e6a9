import Acton.ToMathlib.Trace

/-!
# TCP connections

The actor `TCPConnection` of `base/src/net.act`, with the functions of `base/src/net.ext.c` that it
calls, for one connection attempt. IPv4 and IPv6 race against each other: both names are looked up,
each answer starts a connection, and the first one wins.

The state of the system has the variables of the actor, what the environment still has to report
(answers, results of connections, timers and messages that the actor has sent to itself), and the
calls that the actor has made to the outside. One event is one message that the actor handles.
-/

namespace Acton.Net

/-- The constants `STATE_NONE` .. `STATE_CLOSED`. -/
inductive ConnState where
  | none
  | resolving
  | connecting
  | connected
  | closed
  deriving DecidableEq, Repr

inductive Family where
  | v4
  | v6
  deriving DecidableEq, Repr

namespace Family

def other : Family → Family
  | v4 => v6
  | v6 => v4

def name : Family → String
  | v4 => "IPv4"
  | v6 => "IPv6"

end Family

/-- The variables for one family: `_a_res`, `_sock4`, `_sock4_state`, `_sock4_error`, and the same
for IPv6. A socket that is `-1` is `none`. -/
structure SockVars where
  res : List String := []
  sock : Option ℕ := .none
  state : ConnState := .none
  error : String := ""
  deriving DecidableEq, Repr

/-- What the environment has to report for one family. -/
structure Pending where
  /-- The answer to a query. -/
  lookup : Bool := false
  /-- The end of the pause before a query is repeated. -/
  retry : Bool := false
  /-- The result of `uv_tcp_connect`. -/
  connect : Bool := false
  deriving DecidableEq, Repr

inductive Call where
  | onConnect
  | onError (msg : String)
  /-- `uv_shutdown` of a socket. -/
  | shutdown (sock : ℕ)
  deriving DecidableEq, Repr

structure Conn where
  vars : Family → SockVars := fun _ => {}
  sock : Option ℕ := .none
  state : ConnState := .none
  connections : ℕ := 0
  consecutiveConnectErrors : ℕ := 0
  /-- The handle of the next socket. -/
  fresh : ℕ := 0
  pending : Family → Pending := fun _ => {}
  /-- The timer of the attempt is running. -/
  timer : Bool := false
  /-- Messages `close(_on_close)` of the timer. -/
  close : ℕ := 0
  /-- Shutdowns that are not complete. -/
  shutdown : ℕ := 0
  /-- Messages `_on_close` of the timer. -/
  onClose : ℕ := 0
  calls : List Call := []

namespace Conn
variable (s : Conn)

@[simp]
def setVars (f : Family) (v : SockVars) : Conn :=
  { s with vars := Function.update s.vars f v }

@[simp]
def setPending (f : Family) (p : Pending) : Conn :=
  { s with pending := Function.update s.pending f p }

@[simp]
def call (c : Call) : Conn :=
  { s with calls := s.calls ++ [c] }

/-- `on_error(self, msg)` after a failed attempt. -/
@[simp]
def connectError (msg : String) : Conn :=
  { s with consecutiveConnectErrors := s.consecutiveConnectErrors + 1 }.call (.onError msg)

/-! ## Starting a connection -/

/-- `_connect4` and `_connect6`: a new socket, and a request to connect it. -/
@[simp]
def connectFamily (f : Family) : Conn :=
  { s.setVars f { s.vars f with sock := some s.fresh } with fresh := s.fresh + 1 }.setPending f
    { s.pending f with connect := true }

/-- `_lookup_a` and `_lookup_aaaa`. -/
@[simp]
def lookup (f : Family) : Conn := s.setPending f { s.pending f with lookup := true }

/-- The state of the attempt and of the family when a connection is started. -/
@[simp]
def setConnecting (f : Family) : Conn :=
  { s.setVars f { s.vars f with state := .connecting } with state := .connecting }

/-- What the address of the connection is. -/
inductive Address where
  | ipv4
  | ipv6
  | hostname
  deriving DecidableEq, Repr

def connect (address : Address) : Conn :=
  let s := { s with timer := true }
  match address with
  | .ipv4 => (s.setConnecting .v4).connectFamily .v4
  | .ipv6 => (s.setConnecting .v6).connectFamily .v6
  | .hostname => ({ s with state := .resolving }.lookup .v6).lookup .v4

/-! ## Messages -/

/-- `_on_dns_a_resolve` and `_on_dns_aaaa_resolve`. -/
def onDnsResolve (f : Family) (result : List String) : Conn :=
  let s := s.setVars f { s.vars f with res := result }
  let s := s.setConnecting f
  match result with
  -- `result[0]` raises `IndexError`
  | [] => s
  | _ :: _ => s.connectFamily f

/-- `_on_dns_a_error` and `_on_dns_aaaa_error`. -/
def onDnsError (f : Family) : Conn :=
  if s.state = .resolving then s.setPending f { s.pending f with retry := true } else s

/-- `_on_tcp_error`, for the family of the socket. -/
def onTcpError (f : Family) (errmsg : String) : Conn :=
  let s :=
    if (s.vars f.other).state = .none then s.connectError errmsg
    -- with two families, the second error counts
    else if (s.vars f.other).error ≠ "" then
      s.connectError (errmsg ++ "  " ++ f.other.name ++ " error: " ++ (s.vars f.other).error)
    else s
  s.setVars f { s.vars f with error := errmsg }

/-- `_on_connect`. `readError` is the error of `uv_read_start`, if any. -/
def onConnect (sock : Option ℕ) (readError : Option String) : Conn :=
  if s.state = .connecting then
    let s := { s with state := .connected, sock := sock }
    let s := match readError with
      | some msg => s.call (.onError ("Failed to start reading from TCP client socket: " ++ msg))
      | .none => s
    { s with connections := s.connections + 1, consecutiveConnectErrors := 0 }.call .onConnect
  else s

/-- `_on_connect4` and `_on_connect6`. -/
def onConnectFamily (f : Family) (readError : Option String) : Conn :=
  let s := s.setVars f { s.vars f with state := .connected, error := "" }
  -- the other family has won
  if (s.vars f.other).state = .connected then s
  else s.onConnect (s.vars f).sock readError

def connectTimeout : Conn :=
  if s.state = .connecting then
    { s with
      state := .closed
      consecutiveConnectErrors := s.consecutiveConnectErrors + 1
      close := s.close + 1 }
  else s

/-- The message `close`. `ok` tells whether `uv_shutdown` has started. -/
def handleClose (ok : Bool) : Conn :=
  match s.sock with
  | .none => { s with onClose := s.onClose + 1 }
  | some sock =>
    let s := s.call (.shutdown sock)
    let s := { s with
      sock := .none
      vars := fun f => { s.vars f with sock := .none } }
    if ok then { s with shutdown := s.shutdown + 1 } else { s with onClose := s.onClose + 1 }

def timeoutMessage : String := "Connection attempt failed due to timeout"

/-- `_on_close` of the timer. -/
def handleOnClose : Conn := s.call (.onError timeoutMessage)

/-- The text of the error of a connection, from `on_connect4` and `on_connect6`. -/
def connectMessage (f : Family) (msg : String) : String :=
  "Error in TCP connect over " ++ f.name ++ ": " ++ msg

end Conn

/-! ## Events -/

inductive Event where
  | dnsResolve (f : Family) (result : List String)
  | dnsError (f : Family)
  | retry (f : Family)
  | tcpConnect (f : Family) (readError : Option String)
  | tcpError (f : Family) (msg : String)
  | timeout
  | close (ok : Bool)
  | afterShutdown
  | onClose
  deriving DecidableEq, Repr

/-- An event, if the environment has it to report. -/
def step (s : Conn) : Event → Option Conn
  | .dnsResolve f result =>
    if (s.pending f).lookup then
      some ((s.setPending f { s.pending f with lookup := false }).onDnsResolve f result)
    else none
  | .dnsError f =>
    if (s.pending f).lookup then
      some ((s.setPending f { s.pending f with lookup := false }).onDnsError f)
    else none
  | .retry f =>
    if (s.pending f).retry then
      some ((s.setPending f { s.pending f with retry := false }).lookup f)
    else none
  | .tcpConnect f readError =>
    if (s.pending f).connect then
      some ((s.setPending f { s.pending f with connect := false }).onConnectFamily f readError)
    else none
  | .tcpError f msg =>
    if (s.pending f).connect then
      some ((s.setPending f { s.pending f with connect := false }).onTcpError f
        (Conn.connectMessage f msg))
    else none
  | .timeout => if s.timer then some { s with timer := false }.connectTimeout else none
  | .close ok => if 0 < s.close then some ({ s with close := s.close - 1 }.handleClose ok) else none
  | .afterShutdown =>
    if 0 < s.shutdown then
      some { s with shutdown := s.shutdown - 1, onClose := s.onClose + 1 }
    else none
  | .onClose => if 0 < s.onClose then some { s with onClose := s.onClose - 1 }.handleOnClose else
      none

/-- The actor after its initialisation. -/
def start (address : Conn.Address) : Conn := ({} : Conn).connect address

def run (address : Conn.Address) (events : List Event) : Option Conn :=
  Trace.run step (start address) events

end Acton.Net
