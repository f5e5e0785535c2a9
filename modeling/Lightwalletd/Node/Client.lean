/-
The JSON-RPC client, `src/node/mod.rs`, as far as looking up block hashes takes it.

What goes over the connection is a parameter: `post` and `postBatch` send a body and
hand back the reply, already capped, read and parsed, or the error that one of those
ended in.  A batch may be answered in any order and with any number of replies, so each
is put into the place its id names.
-/
import Lightwalletd.Error
import Lightwalletd.Lib.Result

namespace Lightwalletd

/-! ### JSON -/

/-- `serde_json::Value`; a number that is no integer is its text. -/
inductive Json
  | null
  | bool (b : Bool)
  | integer (n : Int)
  | float (text : String)
  | string (text : String)
  | array (items : List Json)
  | object (fields : List (String × Json))

/-- What an error calls a value. -/
def Json.unexpected : Json → String
  | null => "null"
  | bool b => s!"boolean `{b}`"
  | integer n => s!"integer `{n}`"
  | float text => s!"floating point `{text}`"
  | string text => s!"string {text.quote}"
  | array _ => "sequence"
  | object _ => "map"

/-- `serde_json::from_value::<String>`. -/
def Json.toText : Json → Except NodeError String
  | string text => .ok text
  | value => .error (.decode s!"invalid type: {value.unexpected}, expected a string")

/-! ### Envelopes -/

structure RpcRequest where
  jsonrpc : String
  id : String
  method : String
  params : Json

structure RpcErrorObject where
  code : Int
  message : String

structure RpcResponse where
  result : Option Json
  error : Option RpcErrorObject

/-- One call inside a JSON-RPC batch. -/
structure BatchRequest where
  jsonrpc : String
  id : Nat
  method : String
  params : Json

/-- One reply inside a batch, correlated by `id` since a server may answer in any
order. -/
structure BatchResponse where
  id : Option Nat
  result : Option Json
  error : Option RpcErrorObject

/-! ### The client -/

structure NodeClient where
  post : RpcRequest → Except NodeError RpcResponse
  postBatch : List BatchRequest → Except NodeError (List BatchResponse)

namespace NodeClient

variable (client : NodeClient)

/-- Issue a raw JSON-RPC call and return the decoded `result` value. -/
def rawRequest (method : String) (params : Json) : Except NodeError Json := do
  let response ← client.post { jsonrpc := "1.0", id := "lwd", method := method, params := params }
  match response.error with
  | some error => .error (.rpc error.code error.message)
  | none =>
      match response.result with
      | some value => .ok value
      | none => .error .emptyResult

/-- The requests of a batch, numbered in order. -/
def batchRequests (method : String) (calls : List Json) : List BatchRequest :=
  calls.zipIdx.map fun call =>
    { jsonrpc := "2.0", id := call.2, method := method, params := call.1 }

/-- The loop over the replies of a batch, each put into the place its id names. -/
def fillResults : List (Option Json) → List BatchResponse → Except NodeError (List (Option Json))
  | results, [] => .ok results
  | results, response :: rest =>
      match response.error with
      | some error => .error (.rpc error.code error.message)
      | none =>
          match response.id with
          | some id =>
              if id < results.length then fillResults (results.set id response.result) rest
              else .error .emptyResult
          | none => .error .emptyResult

/-- Issue one JSON-RPC call per element of `calls`, in a single request, and return the
results in the order asked for. -/
def batchRequest (method : String) (calls : List Json) : Except NodeError (List Json) :=
  if calls.isEmpty then .ok []
  else do
    let responses ← client.postBatch (batchRequests method calls)
    let results ← fillResults (List.replicate calls.length none) responses
    match results.mapM id with
    | some values => .ok values
    | none => .error .emptyResult

def hashCall (height : Nat) : Json := .array [.integer height]

def getBlockHash (height : Nat) : Except NodeError String := do
  let value ← client.rawRequest "getblockhash" (hashCall height)
  value.toText

/-- The block hashes at `heights`, in one batched request. -/
def getBlockHashes (heights : List Nat) : Except NodeError (List String) := do
  let values ← client.batchRequest "getblockhash" (heights.map hashCall)
  values.mapM Json.toText

end NodeClient

/-- The two hash lookups of `NodeRpc`. -/
structure HashRpc where
  getBlockHash : Nat → Except NodeError String
  getBlockHashes : List Nat → Except NodeError (List String)

/-- The default `NodeRpc::get_block_hashes`: one lookup after the other. -/
def defaultBlockHashes (getBlockHash : Nat → Except NodeError String) (heights : List Nat) :
    Except NodeError (List String) := heights.mapM getBlockHash

end Lightwalletd
