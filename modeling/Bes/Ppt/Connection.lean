import Bes.Dispatch.Util
import Bes.Lib.Hex
import Bes.Lib.OrderedMap

/-! The point-to-point transport: `PPTConnection` over a `Socket`. A message is sent in
chunks, each with a header of seven hexadecimal digits and a letter. The receiver gets the
bytes in pieces of any size, and puts chunk after chunk together again.

The characters of a string are bytes. What one side has written, the other side finds in
the same order. -/
namespace Bes.Ppt
open Dispatch Lib

inductive Failure where
  | internal (message : Str)
  /-- A write beyond the end of `_inBuff`. -/
  | undefined
  deriving DecidableEq, Repr

/-- The values of `errno` after which `read` is called again. -/
inductive Interrupt where
  | eintr
  | eagain

inductive Outcome where
  | data (count : Nat)
  | failed (text : Str)

structure ReadEvent where
  interrupts : List Interrupt
  outcome : Outcome

structure Socket where
  incoming : Str
  events : Nat → ReadEvent

namespace Socket

def read (sock : Socket) (inSize : Nat) : Except Failure (Str × Socket) :=
  match (sock.events 0).outcome with
  | .failed text =>
    .error (.internal ("Socket::receive: socket failure, reading on stream socket: ".toList ++ text
      ++ ", bytesRead: -1".toList))
  | .data count =>
    let size := min (max count 1) inSize
    .ok (sock.incoming.take size, ⟨sock.incoming.drop size, fun n => sock.events (n + 1)⟩)

def receiveLoop (sock : Socket) (inSize : Nat) : List Interrupt → Except Failure (Str × Socket)
  | [] => sock.read inSize
  | _ :: interrupts => sock.receiveLoop inSize interrupts

def receive (sock : Socket) (inSize : Nat) : Except Failure (Str × Socket) :=
  sock.receiveLoop inSize (sock.events 0).interrupts

end Socket

/-- The loop of `readChunkHeader`; `buffer` is what has been read already. At the end of the
stream the result is empty. -/
def readChunkHeader (sock : Socket) (bufferSize : Nat) (buffer : Str) :
    Except Failure (Str × Socket) :=
  match sock.receive bufferSize with
  | .error failure => .error failure
  | .ok (bytes, sock) =>
    if bytes = [] then .ok ([], sock)
    else if bytes.length < bufferSize then
      readChunkHeader sock (bufferSize - bytes.length) (buffer ++ bytes)
    else .ok (buffer ++ bytes, sock)
termination_by bufferSize
decreasing_by
  rename_i hend hless
  have hpos := List.length_pos_of_ne_nil hend
  omega

def receiveData (inBuffLen : Nat) (sock : Socket) (len : Nat) (strm : Str) :
    Except Failure (Str × Socket) :=
  match sock.receive (min len inBuffLen) with
  | .error failure => .error failure
  | .ok (bytes, sock) =>
    if bytes = [] then .error (.internal "Failed to read data from socket".toList)
    else if bytes.length < len then
      receiveData inBuffLen sock (len - bytes.length) (strm ++ bytes)
    else .ok (strm ++ bytes, sock)
termination_by len
decreasing_by
  rename_i hend hless
  have hpos := List.length_pos_of_ne_nil hend
  omega

abbrev Extensions := OrderedMap Str Str

/-- One turn of the loop of `read_extensions`: the text up to a semicolon. `text` is all that is
left, for the message. -/
def readExtension (extensions : Extensions) (part text : Str) : Except Failure Extensions :=
  if '=' ∈ part then
    let var := part.takeWhile fun c => decide (c ≠ '=')
    let val := part.drop (var.length + 1)
    if val = [] then
      .error (.internal ("malformed extensions ".toList ++ text
        ++ ", missing value after =".toList))
    else .ok (extensions.put var val)
  else .ok (extensions.put part [])

def readExtensions (extensions : Extensions) (xstr : Str) : Except Failure Extensions :=
  if ';' ∈ xstr then
    let part := xstr.takeWhile fun c => decide (c ≠ ';')
    let rest := xstr.drop (part.length + 1)
    match readExtension extensions part xstr with
    | .error failure => .error failure
    | .ok extensions => if rest = [] then .ok extensions else readExtensions extensions rest
  else
    .error (.internal ("malformed extensions ".toList ++ xstr ++ ", missing semicolon".toList))
termination_by xstr.length
decreasing_by
  rename_i hsemi _
  have hpos := List.length_pos_of_mem hsemi
  rw [List.length_drop]
  omega

structure Connection where
  sock : Socket
  recvBufferSize : Nat

def Connection.inBuffLen (connection : Connection) : Nat := connection.recvBufferSize + 1

/-- The return value of a call of `receive`, and what it leaves: the extensions, the output
stream and the connection. -/
structure Received where
  last : Bool
  extensions : Extensions
  strm : Str
  connection : Connection

/-- The length that a header gives; the buffer for it is a C string. -/
def headerLength (header : Str) : Int :=
  match Hex.scan ((header.take 7).takeWhile fun c => decide (c ≠ '\x00')) with
  | none => 0
  | some (negative, magnitude) => if negative then -magnitude else magnitude

def receiveChunk (connection : Connection) (inlen : Int) (kind : Option Char)
    (extensions : Extensions) (strm : Str) : Except Failure Received :=
  let body (strm : Str) : Except Failure (Str × Socket) :=
    -- as a `size_t` it is more than `SSIZE_MAX`, and `read` fails
    if inlen < 0 then .error (.internal
      "Socket::receive: socket failure, reading on stream socket: Bad address, bytesRead: -1".toList)
    else receiveData connection.inBuffLen connection.sock inlen.toNat strm
  match kind with
  | some 'x' =>
    match body [] with
    | .error failure => .error failure
    | .ok (xstr, sock) =>
      match readExtensions extensions xstr with
      | .error failure => .error failure
      | .ok extensions => .ok ⟨false, extensions, strm, { connection with sock := sock }⟩
  | some 'd' =>
    if inlen = 0 then .ok ⟨true, extensions, strm, connection⟩
    else
      match body strm with
      | .error failure => .error failure
      | .ok (strm, sock) => .ok ⟨false, extensions, strm, { connection with sock := sock }⟩
  | kind =>
    .error (.internal ("type of data is ".toList ++ kind.toList
      ++ ", should be x for extensions or d for data".toList))

def Connection.receive (connection : Connection) (extensions : Extensions) (strm : Str) :
    Except Failure Received :=
  -- the header and a NUL are stored in a buffer of one more than its length
  if connection.inBuffLen + 1 < 9 then .error .undefined
  else
    match readChunkHeader connection.sock 8 [] with
    | .error failure => .error failure
    | .ok (header, sock) =>
      if header.length ≠ 8 then
        .error (.internal "PPTConnection::receive() - Failed to read chunk header".toList)
      else
        receiveChunk { connection with sock := sock } (headerLength header) header[7]? extensions strm

def frame (kind : Char) (text : Str) : Str :=
  Hex.padded 7 text.length ++ kind :: text

def encodeExtension (extension : Str × Str) : Str :=
  extension.1 ++ (if extension.2 = [] then [] else '=' :: extension.2) ++ [';']

def encodeExtensions (extensions : Extensions) : Str :=
  extensions.entries.flatMap encodeExtension

def sendExtensions (extensions : Extensions) : Str :=
  if extensions.size = 0 then [] else frame 'x' (encodeExtensions extensions)

def sendChunk (buffer : Str) (extensions : Extensions) : Str :=
  sendExtensions extensions ++ frame 'd' buffer

def send (buffer : Str) (extensions : Extensions) : Str :=
  if buffer ≠ [] then sendChunk buffer extensions ++ sendChunk [] .empty
  else sendChunk [] extensions

end Bes.Ppt
