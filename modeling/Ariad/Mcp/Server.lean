import Ariad.Concurrency.Transitions
import Ariad.Indexer.Paths
import Ariad.Javascript.Value

/-!
# The MCP server

JSON-RPC over the standard streams: a line comes in, and responses go out. Tool handlers run asynchronously
and settle in any order.

* `McpHost` — what the server takes from its runtime and from its tools.
* `McpServer` — the state: the handshake, the calls whose handler runs, and what was written.
* `handleLine` — the dispatch of one line, with every early return.
* `step` — a line arrives, or a handler completes or fails.
-/

namespace Ariad.Mcp

/-- A tool as `tools/list` shows it. -/
structure Tool where
  name : Text
  description : Text
  inputSchema : Js
  annotations : Option Js

/-- What the server takes from its runtime and its tools. -/
structure McpHost where
  /-- `JSON.parse`, or the message of what it throws. -/
  parse : Text → Except Text Js
  /-- `ALL_TOOLS`; the handlers have the same names. -/
  tools : List Tool
  /-- The version of `package.json`. -/
  version : Text

def MCP_MAX_LINE_LENGTH : ℕ := 10 * 1024 * 1024

def PARSE_ERROR : ℤ := -32700

def INVALID_REQUEST : ℤ := -32600

def METHOD_NOT_FOUND : ℤ := -32601

def INVALID_PARAMS : ℤ := -32602

def INTERNAL_ERROR : ℤ := -32603

def CURRENT_PROTOCOL_VERSION : Text := "2025-11-25".toList

def ANNOTATED_PROTOCOL_VERSIONS : List Text := ["2025-11-25".toList, "2025-06-18".toList]

def SUPPORTED_PROTOCOL_VERSIONS : List Text := ANNOTATED_PROTOCOL_VERSIONS ++ ["2024-11-05".toList]

/-- What a response says. -/
inductive Body where
  | result (r : Js)
  | error (code : ℤ) (message : Text)
  deriving DecidableEq

/-- A response that was written, and the number of the line that it answers. -/
structure Response where
  line : ℕ
  id : Js
  body : Body
  deriving DecidableEq

/-- A handler that runs, for the call of a line. A call without an id is a notification. -/
structure Call where
  line : ℕ
  id : Option Js
  tool : Text
  args : Js
  deriving DecidableEq

structure McpServer where
  /-- The lines that were read, in order. -/
  received : List Text
  negotiatedProtocolVersion : Option Text
  initialized : Bool
  pending : List Call
  responses : List Response
  /-- The lines whose tool handler was run. -/
  handled : List ℕ
  deriving DecidableEq

def McpServer.start : McpServer := ⟨[], none, false, [], [], []⟩

/-! ## Values -/

/-- A property of a value; a value that is no object has none of those that are asked for. -/
def field (k : Text) : Js → Option Js
  | .obj fields => fields.get k
  | _ => none

/-- `v || {}` -/
def orEmpty : Option Js → Js
  | none | some .null | some (.bool false) | some (.num .nan) | some (.str []) => .obj .nil
  | some v => if v = .num (.finite 0) then .obj .nil else v

def str (s : String) : Js := .str s.toList

def obj (fields : List (String × Js)) : Js :=
  .obj (fields.foldr (fun f rest => .cons f.1.toList f.2 rest) .nil)

namespace McpServer

variable (s : McpServer) (line : ℕ)

/-! ## Responses -/

/-- Only an absent id gets no response. -/
def sendResult (id : Option Js) (r : Js) : McpServer :=
  match id with
  | none => s
  | some id => { s with responses := s.responses ++ [⟨line, id, .result r⟩] }

def sendError (id : Option Js) (code : ℤ) (message : Text) : McpServer :=
  match id with
  | none => s
  | some id => { s with responses := s.responses ++ [⟨line, id, .error code message⟩] }

/-- `sendResponse`: the id is null if there is none. -/
def sendResponse (id : Option Js) (code : ℤ) (message : Text) : McpServer :=
  s.sendError line (some (id.getD .null)) code message

/-! ## Methods -/

def onInitialize (host : McpHost) (id params : Option Js) : McpServer :=
  let requestedVersion :=
    match params.bind (field "protocolVersion".toList) with
    | some (.str v) => v
    | _ => CURRENT_PROTOCOL_VERSION
  let protocolVersion :=
    if requestedVersion ∈ SUPPORTED_PROTOCOL_VERSIONS then requestedVersion else CURRENT_PROTOCOL_VERSION
  { s with negotiatedProtocolVersion := some protocolVersion }.sendResult line id <|
    obj [("protocolVersion", .str protocolVersion),
      ("capabilities", obj [("tools", obj [("listChanged", .bool false)])]),
      ("serverInfo", obj [("name", str "codebase-memory-v2"), ("version", .str host.version)])]

def toolsList (host : McpHost) (id : Option Js) : McpServer :=
  let includeAnnotations :=
    match s.negotiatedProtocolVersion with
    | none => true
    | some v => decide (v ∈ ANNOTATED_PROTOCOL_VERSIONS)
  let tools := host.tools.map fun t =>
    let annotations := if includeAnnotations then t.annotations.toList.map fun a => ("annotations", a) else []
    obj ([("name", .str t.name), ("description", .str t.description), ("inputSchema", t.inputSchema)] ++ annotations)
  s.sendResult line id (obj [("tools", .arr (.ofList tools))])

def toolsCall (host : McpHost) (id params : Option Js) : McpServer :=
  if !s.initialized then
    s.sendError line id INVALID_REQUEST "Server not initialized: send initialize first".toList
  else
    let params := orEmpty params
    match field "name".toList params with
    | some (.str name) =>
      if name ∈ host.tools.map Tool.name then
        -- the handler runs; what becomes of it is an event of its own
        { s with
          pending := s.pending ++ [⟨line, id, name, orEmpty (field "arguments".toList params)⟩]
          handled := s.handled ++ [line] }
      else
        s.sendError line id METHOD_NOT_FOUND
          ("Tool not found: ".toList ++ name ++ ". Available tools: ".toList ++
            (", ".toList).intercalate (host.tools.map Tool.name))
    | _ => s.sendError line id INVALID_PARAMS "tools/call requires params.name (string)".toList

/-- A JSON-RPC message with a method. -/
def handleMessage (host : McpHost) (id params : Option Js) (method : Text) : McpServer :=
  if method = "notifications/initialized".toList then
    if s.negotiatedProtocolVersion.isNone then s else { s with initialized := true }
  else if method = "notifications/cancelled".toList then s
  else if "notifications/".toList.isPrefixOf method then s
  else if method = "initialize".toList then s.onInitialize line host id params
  else if method = "ping".toList then s.sendResult line id (.obj .nil)
  else if method = "tools/list".toList then s.toolsList line host id
  else if method = "tools/call".toList then s.toolsCall line host id params
  else
    s.sendError line id METHOD_NOT_FOUND
      ("Method not found: ".toList ++ method ++
        ". Supported: initialize, notifications/initialized, ping, tools/list, tools/call".toList)

/-- `handleLine`, up to the end of the handler that it may wait for. -/
def handleLine (host : McpHost) (text : Text) : McpServer :=
  match host.parse text with
  | .error message => s.sendResponse line none PARSE_ERROR ("Parse error: ".toList ++ message)
  | .ok (.arr _) =>
    s.sendResponse line none INVALID_REQUEST "Invalid Request: JSON-RPC batching is not supported".toList
  | .ok (.obj req) =>
    match req.get "jsonrpc".toList, req.get "method".toList with
    | some (.str version), some (.str method) =>
      if version = "2.0".toList then
        s.handleMessage line host (req.get "id".toList) (req.get "params".toList) method
      else
        s.sendResponse line (req.get "id".toList) INVALID_REQUEST
          "Invalid Request: missing jsonrpc=2.0 or method".toList
    | _, _ =>
      s.sendResponse line (req.get "id".toList) INVALID_REQUEST
        "Invalid Request: missing jsonrpc=2.0 or method".toList
  | .ok _ => s.sendResponse line none INVALID_REQUEST "Invalid Request: not an object".toList

/-- A line arrives. A line that is too long is dropped. -/
def receive (host : McpHost) (text : Text) : McpServer :=
  let line := s.received.length
  let s := { s with received := s.received ++ [text] }
  if MCP_MAX_LINE_LENGTH < (text.flatMap utf16).length then s else s.handleLine line host text

/-- The handler of a call completes, or fails with a message. -/
def settle (line : ℕ) (outcome : Except Text Js) : Option McpServer :=
  match s.pending.find? fun c => c.line = line with
  | none => none
  | some c =>
    let s := { s with pending := s.pending.filter fun c => c.line ≠ line }
    match outcome with
    | .ok result => some (s.sendResult line c.id result)
    | .error message =>
      some (s.sendError line c.id INTERNAL_ERROR ("Tool \"".toList ++ c.tool ++ "\" error: ".toList ++ message))

end McpServer

/-! ## Runs -/

inductive McpEvent where
  | line (text : Text)
  | settled (line : ℕ) (outcome : Except Text Js)

def McpServer.after (host : McpHost) (s : McpServer) : McpEvent → Option McpServer
  | .line text => some (s.receive host text)
  | .settled line outcome => s.settle line outcome

/-- One event of the server. -/
def step (host : McpHost) (s : McpServer) (e : McpEvent) (s' : McpServer) : Prop := s.after host e = some s'

end Ariad.Mcp
