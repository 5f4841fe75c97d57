import LiburingServer.Common
import Mathlib.Data.List.Basic

/-! Requests and response headers of HTTP, from `read_cb` and `web_server.tcc`. -/

namespace LiburingServer

/-- What a `char*` reads as: the bytes before the first zero. -/
def cString (buffer : Bytes) : Bytes := buffer.takeWhile (· ≠ 0)

/-- The tokens that repeated calls of `strtok_r` return. -/
def strtok (delimiters : Bytes) (s : Bytes) : List Bytes :=
  (s.splitOnP (· ∈ delimiters)).filter (· ≠ [])

/-- `std::string::find` finds something. -/
def occurs (pattern s : Bytes) : Bool := s.tails.any fun t => pattern.isPrefixOf t

/-- `is_valid_http_req`: at least 16 bytes, and one of the five methods at the front. -/
def isValidHttpReq (buff : Bytes) : Bool :=
  16 ≤ buff.length ∧
    [ascii "GET ", ascii "POST ", ascii "PUT ", ascii "DELETE ", ascii "PATCH "].any fun type =>
      type.isPrefixOf buff

structure HttpRequest where
  isGet : Bool
  path : Bytes
  acceptBytes : Bool
  secWebsocketKey : Bytes
  deriving DecidableEq

/-- What one line of a request says: whether bytes are accepted, and the websocket key. A line that
names the key and is too short for `substr` throws. -/
def headerLine (found : Bool × Bytes) (line : Bytes) : Option (Bool × Bytes) :=
  let acceptBytes := found.1 || occurs (ascii "Range: bytes=") line
  if occurs (ascii "Sec-WebSocket-Key") line then
    if line.length < (ascii "Sec-WebSocket-Key: ").length then none
    else some (acceptBytes, line.drop (ascii "Sec-WebSocket-Key: ").length)
  else some (acceptBytes, found.2)

/-- The part of `read_cb` that reads a request: its lines, and the method and the path of the first
one. Without a path the source dereferences a null pointer. -/
def parseRequest (buffer : Bytes) : Option HttpRequest :=
  let lines := strtok [13, 10] (cString buffer)
  match lines.foldlM headerLine (false, []), lines with
  | some (acceptBytes, secWebsocketKey), first :: _ =>
      match strtok (ascii " ") first with
      | method :: path :: _ =>
          some { isGet := method = ascii "GET", path := path.drop 1, acceptBytes, secWebsocketKey }
      | _ => none
  | _, _ => none

/-- The request is for the websocket path and carries a key. -/
def HttpRequest.isWebsocket (req : HttpRequest) : Bool :=
  (strtok (ascii "/") req.path).head? = some (ascii "ws") ∧ req.secWebsocketKey ≠ []

/-- The file that a `GET` is for. -/
def HttpRequest.filepath (req : HttpRequest) : Bytes :=
  if req.path = [] then ascii "public/index.html" else ascii "public/" ++ req.path

def getContentType (filepath : Bytes) : Bytes :=
  let extension := ((strtok (ascii ".") filepath).getLast?).getD []
  if extension = ascii "html" ∨ extension = ascii "htm" then ascii "Content-Type: text/html\r\n"
  else if extension = ascii "css" then ascii "Content-Type: text/css\r\n"
  else if extension = ascii "js" then ascii "Content-Type: text/javascript\r\n"
  else if extension = ascii "opus" then ascii "Content-Type: audio/opus\r\n"
  else if extension = ascii "mp3" then ascii "Content-Type: audio/mpeg\r\n"
  else if extension = ascii "mp4" then ascii "Content-Type: video/mp4\r\n"
  else if extension = ascii "gif" then ascii "Content-Type: image/gif\r\n"
  else if extension = ascii "png" then ascii "Content-Type: image/png\r\n"
  else if extension = ascii "jpg" ∨ extension = ascii "jpeg" then ascii "Content-Type: image/jpeg\r\n"
  else if extension = ascii "txt" then ascii "Content-Type: text/plain\r\n"
  else if extension = ascii "wasm" then ascii "Content-Type: application/wasm\r\n"
  else ascii "Content-Type: application/octet-stream\r\n"

/-- The headers that `send_file_request` puts before a file. -/
def fileHeaders (filepath : Bytes) (fileSize : ℕ) (acceptBytes cached : Bool) (responseCode : ℕ) : Bytes :=
  let firstLine :=
    if responseCode = 200 then ascii "HTTP/1.0 200 OK\r\n" else ascii "HTTP/1.0 404 Not Found\r\n"
  let contentLength := ascii (toString fileSize)
  let range :=
    if acceptBytes then
      ascii "Accept-Ranges: bytes\r\nContent-Length: " ++ contentLength ++ ascii "\r\nRange: bytes=0-" ++
        contentLength ++ ascii "/"
    else ascii "Content-Length: "
  let cacheControl :=
    if cached then []
    else ascii "Cache-Control: no-cache, no-store, must-revalidate\r\nPragma: no-cache\r\nExpires: 0\r\n"
  firstLine ++ getContentType filepath ++ range ++ contentLength ++ ascii "\r\n" ++ cacheControl ++
    ascii "\r\n"

/-- A request to upgrade the connection to a websocket. -/
def upgradeRequest : Bytes := ascii "GET /ws HTTP/1.1\r\nSec-WebSocket-Key: a\r\n\r\n"

end LiburingServer
