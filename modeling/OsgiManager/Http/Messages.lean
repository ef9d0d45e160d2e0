import OsgiManager.Lib.Bytes

namespace OsgiManager.Http

open OsgiManager.Lib

/-!
# Requests and replies

The data of the embedded HTTP server: what the parser fills, what the handler sends back, the
stock replies, and the buffers a reply is sent from.
-/

/-- `struct header`. -/
structure Header where
  name : Bytes
  value : Bytes
deriving DecidableEq

/-- `struct request`.  The two versions are C `int`s; every assignment to them in the parser
    is wrapped to 32 bits. -/
structure Request where
  method : Bytes
  uri : Bytes
  httpVersionMajor : Int
  httpVersionMinor : Int
  headers : List Header
deriving DecidableEq

/-- `reply::status_type`. -/
inductive StatusType where
  | ok | created | accepted | noContent
  | multipleChoices | movedPermanently | movedTemporarily | notModified
  | badRequest | unauthorized | forbidden | notFound
  | internalServerError | notImplemented | badGateway | serviceUnavailable
deriving DecidableEq

/-- `struct reply`. -/
structure Reply where
  status : StatusType
  headers : List Header
  content : Bytes
deriving DecidableEq

/-! ### Stock replies -/

/-- A page of `stock_replies`, by its title and its heading. -/
def stockPage (title heading : String) : Bytes :=
  ofString "<html><head><title>" ++ ofString title ++ ofString "</title></head><body><h1>" ++
    ofString heading ++ ofString "</h1></body></html>"

/-- `stock_replies::to_string`. -/
def StatusType.toStockString : StatusType → Bytes
  | .ok                  => []
  | .created             => stockPage "Created" "201 Created"
  | .accepted            => stockPage "Accepted" "202 Accepted"
  | .noContent           => stockPage "No Content" "204 Content"
  | .multipleChoices     => stockPage "Multiple Choices" "300 Multiple Choices"
  | .movedPermanently    => stockPage "Moved Permanently" "301 Moved Permanently"
  | .movedTemporarily    => stockPage "Moved Temporarily" "302 Moved Temporarily"
  | .notModified         => stockPage "Not Modified" "304 Not Modified"
  | .badRequest          => stockPage "Bad Request" "400 Bad Request"
  | .unauthorized        => stockPage "Unauthorized" "401 Unauthorized"
  | .forbidden           => stockPage "Forbidden" "403 Forbidden"
  | .notFound            => stockPage "Not Found" "404 Not Found"
  | .internalServerError => stockPage "Internal Server Error" "500 Internal Server Error"
  | .notImplemented      => stockPage "Not Implemented" "501 Not Implemented"
  | .badGateway          => stockPage "Bad Gateway" "502 Bad Gateway"
  | .serviceUnavailable  => stockPage "Service Unavailable" "503 Service Unavailable"

/-- `std::to_string` of a size. -/
def decimal (n : Nat) : Bytes := (Nat.toDigits 10 n).map Char.toUInt8

/-- The two headers of every reply. -/
def contentHeaders (content contentType : Bytes) : List Header :=
  [ ⟨ofString "Content-Length", decimal content.length⟩,
    ⟨ofString "Content-Type", contentType⟩ ]

/-- `reply::stock_reply`. -/
def stockReply (status : StatusType) : Reply where
  status  := status
  headers := contentHeaders status.toStockString (ofString "text/html")
  content := status.toStockString

/-! ### Sending -/

/-- `status_strings::to_buffer`. -/
def StatusType.statusLine : StatusType → Bytes
  | .ok                  => ofString "HTTP/1.0 200 OK\r\n"
  | .created             => ofString "HTTP/1.0 201 Created\r\n"
  | .accepted            => ofString "HTTP/1.0 202 Accepted\r\n"
  | .noContent           => ofString "HTTP/1.0 204 No Content\r\n"
  | .multipleChoices     => ofString "HTTP/1.0 300 Multiple Choices\r\n"
  | .movedPermanently    => ofString "HTTP/1.0 301 Moved Permanently\r\n"
  | .movedTemporarily    => ofString "HTTP/1.0 302 Moved Temporarily\r\n"
  | .notModified         => ofString "HTTP/1.0 304 Not Modified\r\n"
  | .badRequest          => ofString "HTTP/1.0 400 Bad Request\r\n"
  | .unauthorized        => ofString "HTTP/1.0 401 Unauthorized\r\n"
  | .forbidden           => ofString "HTTP/1.0 403 Forbidden\r\n"
  | .notFound            => ofString "HTTP/1.0 404 Not Found\r\n"
  | .internalServerError => ofString "HTTP/1.0 500 Internal Server Error\r\n"
  | .notImplemented      => ofString "HTTP/1.0 501 Not Implemented\r\n"
  | .badGateway          => ofString "HTTP/1.0 502 Bad Gateway\r\n"
  | .serviceUnavailable  => ofString "HTTP/1.0 503 Service Unavailable\r\n"

/-- `reply::to_buffers`: what the buffers hold. -/
def Reply.toBuffers (rep : Reply) : List Bytes :=
  let headerBuffers := rep.headers.flatMap fun h =>
    [h.name, ofString ": ", h.value, ofString "\r\n"]
  [rep.status.statusLine] ++ headerBuffers ++ [ofString "\r\n", rep.content]

end OsgiManager.Http
