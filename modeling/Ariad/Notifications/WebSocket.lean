import Ariad.Javascript.Value
import Ariad.Ui.GraphRoutes
import Ariad.Ui.StoreRegistry

/-!
# Notifications over a WebSocket

The hook `useWebSocket` keeps a socket to the UI server for the project that it is mounted for, and the server sends
what its hub emits to every socket whose filter lets it through.

* `Socket` — both ends of a connection, with the messages on the way.
* `World` — the refs and the state of the hook, its bootstrap requests and its sockets.
* `connect`, `scheduleReconnect`, `reconnect`, `startPing`, `stopPing` — the functions of the hook.
* `accept`, `receive`, `broadcastToWsClients` — the server's.
* `World.after` — one event at either end.
-/

namespace Ariad.Notifications

/-! ## Messages -/

/-- What the hub emits. -/
structure HubEvent where
  project : Text
  type : Text
  timestamp : Text
  data : Option Js

inductive ServerMessage where
  | connected (project : Text)
  | pong
  | notification (event : HubEvent)

inductive ClientMessage where
  | subscribe (project : Text)
  | ping

/-- `CONNECTING`, `OPEN`, `CLOSING` and `CLOSED`. -/
inductive ReadyState where
  | connecting
  | opened
  | closing
  | closed
  deriving DecidableEq

structure WsRateState where
  windowStartedAt : ℕ
  messages : ℕ

/-- A socket of the hook. Its handlers have captured the project and the generation of their `connect`. -/
structure Socket where
  project : Text
  gen : ℕ
  readyState : ReadyState
  /-- The server's end; connecting until the server has accepted it, and closed when it has left `wsClients`. -/
  server : ReadyState
  /-- On the way to the client, and to the server. -/
  toClient : List ServerMessage
  toServer : List ClientMessage
  /-- `wsProjectFilters` -/
  filter : Option Text
  rate : WsRateState

/-- The socket is open or connecting. -/
def Socket.live (s : Socket) : Bool := s.readyState = .connecting || s.readyState = .opened

/-- `ws.close()` of the client. -/
def Socket.close (s : Socket) : Socket := if s.live then { s with readyState := .closing } else s

/-- A call of `connect` that waits for the bootstrap. -/
structure Bootstrap where
  project : Text
  gen : ℕ
  forceRefresh : Bool
  done : Bool

inductive BootstrapResult where
  | failed
  /-- The constructor of `WebSocket` throws. -/
  | refused
  | created
  deriving DecidableEq

/-! ## The hook -/

def RECONNECT_DELAYS : List ℕ := [1000, 2000, 4000, 8000, 15000]

structure World where
  mountedRef : Bool
  /-- The project of the effect that has run last. -/
  project : Option Text
  /-- The projects of all renders, the newest one last; each render has left a `reconnect` behind. -/
  renders : List (Option Text)
  effectDue : Bool
  wsGenRef : ℕ
  wsRef : Option ℕ
  reconnectAttemptRef : ℕ
  /-- The project of the timer's `connect`, and the delay. -/
  reconnectTimerRef : Option (Text × ℕ)
  pingTimerRef : Bool
  /-- The socket that the timer closes, while it is armed. -/
  pongTimerRef : Option ℕ
  connected : Bool
  lastEvent : Option HubEvent
  bootstraps : List Bootstrap
  sockets : List Socket
  /-- The calls of `onNotification`, with the project that the hook was mounted for. -/
  calls : List (HubEvent × Option Text)

namespace World

variable (w : World)

/-- The project that the hook is mounted for. -/
def mountedFor : Option Text := if w.mountedRef then w.project else none

def modifySocket (i : ℕ) (f : Socket → Socket) : World := { w with sockets := w.sockets.modify i f }

/-- `wsRef.current.close()` -/
def closeCurrent : World :=
  { w with
    sockets :=
      match w.wsRef with
      | some i => w.sockets.modify i Socket.close
      | none => w.sockets }

def connect (project : Option Text) : World :=
  match project with
  | none => w
  | some p =>
    if p = [] || !w.mountedRef then w
    else
      { w with
        wsGenRef := w.wsGenRef + 1
        bootstraps := w.bootstraps ++ [⟨p, w.wsGenRef + 1, decide (0 < w.reconnectAttemptRef), false⟩] }

def stopPing : World := { w with pingTimerRef := false, pongTimerRef := none }

def startPing : World := { w.stopPing with pingTimerRef := true }

def scheduleReconnect (project : Text) : World :=
  if !w.mountedRef then w
  else
    { w with
      reconnectTimerRef :=
        some (project, RECONNECT_DELAYS.getD (min w.reconnectAttemptRef (RECONNECT_DELAYS.length - 1)) 0)
      reconnectAttemptRef := w.reconnectAttemptRef + 1 }

def reconnect (project : Option Text) : World :=
  let w := { w with reconnectAttemptRef := 0, reconnectTimerRef := none }
  { w.closeCurrent with reconnectTimerRef := none }.connect project

/-- The cleanup of the effect. -/
def cleanUp : World :=
  let w := { w with mountedRef := false, wsGenRef := w.wsGenRef + 1 }
  { w.stopPing with reconnectTimerRef := none }.closeCurrent

def runEffect (project : Option Text) : World :=
  { w with mountedRef := true, project, effectDue := false, connected := false }.connect project

/-- The bootstrap of `connect` has come back. -/
def bootstrapped (b : Bootstrap) (result : BootstrapResult) : World :=
  if w.wsGenRef ≠ b.gen || !w.mountedRef then w
  else
    match result with
    | .failed => w.scheduleReconnect b.project
    | .refused => w.scheduleReconnect b.project
    | .created =>
      { w with
        sockets := w.sockets ++ [⟨b.project, b.gen, .connecting, .connecting, [], [], none, ⟨0, 0⟩⟩]
        wsRef := some w.sockets.length }

/-- The check at the head of every handler of a socket. -/
def stale (s : Socket) : Bool := w.wsGenRef ≠ s.gen || !w.mountedRef

def onopen (i : ℕ) (s : Socket) : World :=
  if w.stale s then w
  else
    (({ w with reconnectAttemptRef := 0, connected := true } : World).modifySocket i fun s =>
      { s with toServer := s.toServer ++ [.subscribe s.project] }).startPing

def onmessage (s : Socket) (m : ServerMessage) : World :=
  if w.stale s then w
  else
    match m with
    | .pong => { w with pongTimerRef := none }
    | .notification event => { w with lastEvent := some event, calls := w.calls ++ [(event, w.mountedFor)] }
    | .connected _ => w

def onclose (s : Socket) : World :=
  if w.stale s then w else ({ w with connected := false } : World).stopPing.scheduleReconnect s.project

def onerror (i : ℕ) (s : Socket) : World := if w.wsGenRef ≠ s.gen then w else w.modifySocket i Socket.close

/-- The interval of the ping. -/
def ping : World :=
  match w.wsRef with
  | none => w
  | some i =>
    match w.sockets[i]? with
    | none => w
    | some s =>
      if s.readyState ≠ .opened then w
      else { w.modifySocket i fun s => { s with toServer := s.toServer ++ [.ping] } with pongTimerRef := some i }

end World

/-! ## The server -/

/-- The server's own project, and its store registry. -/
structure Host where
  project : Text
  opts : Ui.RegistryOptions
  env : Ui.Env

def WS_RATE_WINDOW_MS : ℕ := 10000

def WS_RATE_MAX_MESSAGES : ℕ := 60

namespace Socket

variable (host : Host) (s : Socket)

/-- The server accepts the connection. -/
def accept (now : ℕ) : Socket :=
  { s with
    server := .opened
    toClient := s.toClient ++ [.connected host.project]
    rate := ⟨now, 0⟩ }

def counted (now : ℕ) : WsRateState :=
  if WS_RATE_WINDOW_MS ≤ now - s.rate.windowStartedAt then ⟨now, 1⟩ else ⟨s.rate.windowStartedAt, s.rate.messages + 1⟩

/-- A message reaches the server. -/
def receive (now : ℕ) (registry : Ui.Registry) (m : ClientMessage) : Socket :=
  let s := { s with rate := s.counted now }
  if WS_RATE_MAX_MESSAGES < s.rate.messages then { s with server := .closing }
  else
    match m with
    | .ping => if s.server = .opened then { s with toClient := s.toClient ++ [.pong] } else s
    | .subscribe project =>
      if Ui.isValidProjectName project then
        { s with filter := some (registry.resolveProjectName host.opts host.env project).2 }
      else { s with server := .closing }

/-- Whether an event is sent to the socket; a filter counts only if it is truthy. -/
def takes (event : HubEvent) : Bool :=
  s.server = .opened &&
    match s.filter with
    | none => true
    | some filter => filter = [] || filter = event.project

end Socket

def World.broadcastToWsClients (w : World) (event : HubEvent) : World :=
  { w with
    sockets := w.sockets.map fun s =>
      if s.takes event then { s with toClient := s.toClient ++ [.notification event] } else s }

/-! ## Events -/

inductive WsEvent where
  | render (project : Option Text)
  | effect
  | unmount
  /-- A call of the `reconnect` of a render. -/
  | reconnect (k : ℕ)
  | bootstrap (i : ℕ) (result : BootstrapResult)
  | reconnectTimer
  | pingTimer
  | pongTimer
  | opened (i : ℕ)
  | message (i : ℕ)
  | closed (i : ℕ)
  | error (i : ℕ)
  | accept (i now : ℕ)
  | receive (i now : ℕ) (registry : Ui.Registry)
  | serverClosed (i : ℕ)
  | broadcast (event : HubEvent)

/-- The first render. -/
def World.rendered (project : Option Text) : World where
  mountedRef := true
  project := none
  renders := [project]
  effectDue := false
  wsGenRef := 0
  wsRef := none
  reconnectAttemptRef := 0
  reconnectTimerRef := none
  pingTimerRef := false
  pongTimerRef := none
  connected := false
  lastEvent := none
  bootstraps := []
  sockets := []
  calls := []

/-- The first effect. -/
def World.mounted (project : Option Text) : World := (World.rendered project).runEffect project

variable (host : Host) in
/-- One event at either end; `none` if it cannot happen. -/
def World.after (w : World) : WsEvent → Option World
  | .render project =>
    if w.effectDue || !w.mountedRef then none
    else some { w with renders := w.renders ++ [project], effectDue := w.project ≠ project }
  | .effect => if w.effectDue then w.renders.getLast?.map fun project => w.cleanUp.runEffect project else none
  | .unmount => if w.mountedRef then some { w.cleanUp with effectDue := false } else none
  | .reconnect k => w.renders[k]?.map w.reconnect
  | .bootstrap i result =>
    match w.bootstraps[i]? with
    | some b =>
      if b.done then none
      else
        some (World.bootstrapped
          { w with bootstraps := w.bootstraps.modify i fun b => { b with done := true } } b result)
    | none => none
  | .reconnectTimer =>
    w.reconnectTimerRef.map fun t => ({ w with reconnectTimerRef := none } : World).connect (some t.1)
  | .pingTimer => if w.pingTimerRef then some w.ping else none
  | .pongTimer => w.pongTimerRef.map fun i => ({ w with pongTimerRef := none } : World).modifySocket i Socket.close
  | .opened i =>
    match w.sockets[i]? with
    | some s =>
      if s.readyState = .connecting ∧ s.server ≠ .connecting then
        some ((w.modifySocket i fun s => { s with readyState := .opened }).onopen i s)
      else none
    | none => none
  | .message i =>
    match w.sockets[i]? with
    | some s =>
      match s.readyState, s.toClient with
      | .opened, m :: rest => some ((w.modifySocket i fun s => { s with toClient := rest }).onmessage s m)
      | _, _ => none
    | none => none
  | .closed i =>
    match w.sockets[i]? with
    | some s =>
      if s.readyState = .closed then none
      else some ((w.modifySocket i fun s => { s with readyState := .closed }).onclose s)
    | none => none
  | .error i => w.sockets[i]?.map (w.onerror i)
  | .accept i now =>
    match w.sockets[i]? with
    | some s => if s.server = .connecting then some (w.modifySocket i fun s => s.accept host now) else none
    | none => none
  | .receive i now registry =>
    match w.sockets[i]? with
    | some s =>
      -- the registry remembers names that were resolved, which are valid ones
      if (s.server = .opened ∨ s.server = .closing) ∧ registry.canonicalProjects.all Ui.isValidProjectName then
        match s.toServer with
        | m :: rest => some (w.modifySocket i fun s => { s with toServer := rest }.receive host now registry m)
        | [] => none
      else none
    | none => none
  | .serverClosed i =>
    match w.sockets[i]? with
    | some s =>
      if s.server = .connecting then none else some (w.modifySocket i fun s => { s with server := .closed })
    | none => none
  | .broadcast event => some (w.broadcastToWsClients event)

def wsStep (host : Host) (w : World) (e : WsEvent) (w' : World) : Prop := w.after host e = some w'

end Ariad.Notifications
