import EmbeddedCode.Library.Loop
import EmbeddedCode.Library.Transition
import Mathlib.Data.Int.Notation
import Mathlib.Logic.Function.Basic

/-!
# Queues of chunks that are written to connections

`chunk.c` of `lighttpd-1.4.32/src` keeps what a connection is still to send in a queue of chunks,
in memory or in files. `network_write_chunkqueue` of `network.c` hands it to the socket through
`network_write_chunkqueue_writev` of `network_writev.c`, the backend of a plain socket that is
modelled here, within two limits for a second. What the system answers is left open. Files do not
change, but a range of a file may go past its end.
-/
namespace EmbeddedCode.ChunkQueue

open Loop Transition

/-- `c->file.mmap` of a file that is mapped. -/
structure Mmap where
  length : ℕ
  offset : ℕ
  deriving DecidableEq, Repr

inductive Kind (F : Type) where
  /-- `MEM_CHUNK`, with the bytes of `c->mem` up to `used`. -/
  | mem (bytes : List UInt8)
  /-- `FILE_CHUNK`, `mmap` is none where its start is `MAP_FAILED`. -/
  | file (name : F) (start length : ℕ) (mmap : Option Mmap)
  deriving DecidableEq, Repr

structure Chunk (F : Type) where
  kind : Kind F
  offset : ℕ
  deriving DecidableEq, Repr

/-- What `write` or `writev` gives: at most so many bytes are taken, `EAGAIN` or `EINTR`, `EPIPE` or
`ECONNRESET`, or another error. -/
inductive Written where
  | wrote (r : ℕ)
  | again
  | closed
  | failed
  deriving DecidableEq, Repr

/-- The answers of the system in one round of the loop. -/
structure Reply where
  /-- `stat_cache_get_entry` finds the file. -/
  found : Bool
  /-- `open` and `mmap` succeed. -/
  mapped : Bool
  written : Written
  deriving DecidableEq, Repr

section
variable {F : Type}

namespace Chunk

def IsMem (c : Chunk F) : Bool :=
  match c.kind with
  | .mem _ => true
  | .file .. => false

/-- `chunkqueue_remove_finished_chunks` takes it away. -/
def IsFinished (c : Chunk F) : Bool :=
  match c.kind with
  | .mem bytes => bytes.length = 0 ∨ c.offset = bytes.length - 1
  | .file _ _ length _ => c.offset = length

/-- `c->mem->used`. -/
def used (c : Chunk F) : ℕ :=
  match c.kind with
  | .mem bytes => bytes.length
  | .file .. => 0

/-- The bytes of a chunk in memory that are still to be sent, `used - 1 - offset` of them. -/
def toSend (c : Chunk F) : List UInt8 :=
  match c.kind with
  | .mem bytes => bytes.dropLast.drop c.offset
  | .file .. => []

def advance (c : Chunk F) (n : ℕ) : Chunk F := {c with offset := c.offset + n}

end Chunk

/-- The lengths that `iov_len` gets, of at most `maxBytes` bytes. -/
def iovLens (maxBytes : ℕ) : ℕ → List (Chunk F) → List ℕ
  | _, [] => []
  | numBytes, tc :: tcs =>
      if tc.used = 0 then 0 :: iovLens maxBytes numBytes tcs
      else if tc.toSend.length > maxBytes ∨ numBytes + tc.toSend.length > maxBytes then
        [maxBytes - numBytes]
      else tc.toSend.length :: iovLens maxBytes (numBytes + tc.toSend.length) tcs

/-- The chunks after `r` bytes of them have been written, and whether the last one was reached and
written. -/
def markWritten : ℕ → List (Chunk F × ℕ) → List (Chunk F) × Bool
  | _, [] => ([], true)
  | r, (tc, len) :: chunks =>
      if r ≥ len then
        let (tcs, finished) := markWritten (r - len) chunks
        (tc.advance len :: tcs, finished)
      else (tc.advance r :: chunks.map Prod.fst, false)

def weWantToMmap : ℕ := 512 * 1024

/-- `while (offset + we_want_to_mmap < start) offset += we_want_to_mmap`, which adds less than
`start` in all. -/
def skipAreas (start : ℕ) : ℕ → ℕ → ℕ
  | 0, offset => offset
  | n + 1, offset =>
      if offset + weWantToMmap < start then skipAreas start n (offset + weWantToMmap) else offset

/-- The area of a file that is mapped for the byte behind `offset` bytes. -/
def newArea (start length offset : ℕ) (mmap : Option Mmap) : Mmap :=
  let areaOffset :=
    match mmap with
    | some m => m.offset + weWantToMmap
    | none => skipAreas start start 0
  let weWantToSend := length - offset
  if start + offset + weWantToSend > areaOffset + weWantToMmap then ⟨weWantToMmap, areaOffset⟩
  else ⟨start + length - areaOffset, areaOffset⟩

def pageSize : ℕ := 4096

/-- What is mapped of a file: zeros fill its last page. -/
def paged (content : List UInt8) : List UInt8 :=
  content ++ List.replicate ((pageSize - content.length % pageSize) % pageSize) 0

/-- Where the loop of `network_write_chunkqueue_writev` is. -/
structure Writing (F : Type) where
  /-- The chunks before `c`. -/
  before : List (Chunk F)
  /-- `c` and the chunks behind it. -/
  chunks : List (Chunk F)
  maxBytes : ℕ
  /-- What the socket has taken. -/
  sent : List UInt8
  /-- The rounds so far. -/
  round : ℕ

namespace Writing

/-- The bytes that the socket takes of those it is offered, none on an error that ends the loop. -/
def taken (offered : ℕ) : Written → Except ℤ ℕ
  | .wrote r => .ok (min r offered)
  | .again => .ok 0
  | .closed => .error (-2)
  | .failed => .error (-1)

/-- The queue when the loop is left. -/
def queue (s : Writing F) : List (Chunk F) := s.before ++ s.chunks

def memTurn (maxChunks : ℕ) (reply : Reply) (s : Writing F) : Turn (Writing F) (Writing F × ℤ) :=
  let batch := (s.chunks.takeWhile Chunk.IsMem).take maxChunks
  let lens := iovLens s.maxBytes 0 batch
  let iov := batch.zip lens
  let offered := iov.flatMap fun tc => tc.1.toSend.take tc.2
  match taken offered.length reply.written with
  | .error e => .leave (s, e)
  | .ok r =>
      let (tcs, finished) := markWritten r iov
      let s := {s with
        maxBytes := s.maxBytes - r, sent := s.sent ++ offered.take r, round := s.round + 1}
      if finished then
        .again {s with before := s.before ++ tcs, chunks := s.chunks.drop tcs.length}
      else .leave ({s with chunks := tcs ++ s.chunks.drop tcs.length}, 0)

/-- The bytes of a file are written from the area that is mapped. It faults if the first of them
does not lie in the area or at its end. Nothing can be read behind the last page of the file. -/
def fileWrite (content : List UInt8) (name : F) (start length : ℕ) (area : Mmap) (offset : ℕ)
    (cs : List (Chunk F)) (written : Written) (s : Writing F) :
    Option (Turn (Writing F) (Writing F × ℤ)) :=
  let absOffset := start + offset
  let file (mmap : Option Mmap) (offset : ℕ) : Chunk F := ⟨.file name start length mmap, offset⟩
  if absOffset < area.offset ∨ area.offset + area.length < absOffset then none
  else
    let toSend := min (area.offset + area.length - absOffset) s.maxBytes
    let offered := ((paged content).drop absOffset).take toSend
    match taken offered.length written with
    | .error e => some (.leave ({s with chunks := file (some area) offset :: cs}, e))
    | .ok r =>
        let s := {s with
          maxBytes := s.maxBytes - r, sent := s.sent ++ offered.take r, round := s.round + 1}
        if offset + r = length then
          some (.again {s with before := s.before ++ [file none (offset + r)], chunks := cs})
        else some (.leave ({s with chunks := file (some area) (offset + r) :: cs}, 0))

/-- A round for a file with the content `content`. -/
def fileTurn (content : List UInt8) (name : F) (start length : ℕ) (mmap : Option Mmap)
    (offset : ℕ) (cs : List (Chunk F)) (reply : Reply) (s : Writing F) :
    Option (Turn (Writing F) (Writing F × ℤ)) :=
  let absOffset := start + offset
  if !reply.found ∨ absOffset > content.length then some (.leave (s, -1))
  else
    -- the mapped area serves until its end is reached
    match mmap.filter fun m => absOffset ≠ m.offset + m.length with
    | some area => fileWrite content name start length area offset cs reply.written s
    | none =>
        if reply.mapped then
          fileWrite content name start length (newArea start length offset mmap) offset cs
            reply.written s
        else some (.leave ({s with chunks := ⟨.file name start length none, offset⟩ :: cs}, -1))

def turn (files : F → List UInt8) (maxChunks : ℕ) (replies : ℕ → Reply) (s : Writing F) :
    Option (Turn (Writing F) (Writing F × ℤ)) :=
  match s.chunks with
  | [] => some (.leave (s, 0))
  | c :: cs =>
      if s.maxBytes = 0 then some (.leave (s, 0))
      else
        match c.kind with
        | .mem _ => some (memTurn maxChunks (replies s.round) s)
        | .file name start length mmap =>
            fileTurn (files name) name start length mmap c.offset cs (replies s.round) s

end Writing

/-- `network_write_chunkqueue_writev`: the loop takes a chunk away in every round. -/
def writev (files : F → List UInt8) (maxChunks : ℕ) (replies : ℕ → Reply) (cq : List (Chunk F))
    (maxBytes : ℕ) (sent : List UInt8) : Option (Writing F × ℤ) :=
  run (Writing.turn files maxChunks replies) (cq.length + 1) ⟨[], cq, maxBytes, sent, 0⟩

/-- A connection has its own `con->conf.kbytes_per_second`. -/
structure Conf (P : Type) where
  kbytesPerSecond : P → ℕ
  globalKbytesPerSecond : ℕ
  /-- `IOV_MAX`. -/
  maxChunks : ℕ

structure Connection (F : Type) where
  writeQueue : List (Chunk F)
  bytesWritten : ℕ
  bytesWrittenCurSecond : ℕ
  trafficLimitReached : Bool
  /-- What the last call of `network_write_chunkqueue` has returned. -/
  ret : ℤ
  /-- What the socket has taken. -/
  sent : List UInt8

/-- `max_bytes` under a limit of `kbytes` in a second of which `count` bytes are used, none where
the limit is reached. -/
def underLimit (kbytes count maxBytes : ℕ) : Option ℕ :=
  if kbytes = 0 then some maxBytes
  else if kbytes * 1024 ≤ count then none
  else some (min maxBytes (kbytes * 1024 - count))

def maxWriteLimit : ℕ := 256 * 1024

/-- `network_write_chunkqueue` as `connection_handle_write` calls it, with the counter that all
connections share. -/
def networkWriteChunkqueue {P : Type} (conf : Conf P) (files : F → List UInt8)
    (replies : ℕ → Reply) (p : P) (con : Connection F) (globalCnt : ℕ) :
    Option (Connection F × ℕ) :=
  let limited := (underLimit conf.globalKbytesPerSecond globalCnt maxWriteLimit).bind
    (underLimit (conf.kbytesPerSecond p) con.bytesWrittenCurSecond)
  match limited with
  | none => some ({con with trafficLimitReached := true, ret := 1}, globalCnt)
  | some maxBytes => do
      let (s, ret) ← writev files conf.maxChunks replies con.writeQueue maxBytes con.sent
      let written := s.sent.length - con.sent.length
      let cq := if 0 ≤ ret then s.queue.dropWhile Chunk.IsFinished else s.queue
      let ret := if 0 ≤ ret then (if cq = [] then 0 else 1) else ret
      some ({con with
        writeQueue := cq, bytesWritten := con.bytesWritten + written,
        bytesWrittenCurSecond := con.bytesWrittenCurSecond + written, ret := ret, sent := s.sent},
        globalCnt + written)

inductive Action (P F : Type) where
  /-- `chunkqueue_append_mem`, which stores a NUL for the last byte. -/
  | appendMem (p : P) (mem : List UInt8)
  /-- `chunkqueue_append_buffer` of the bytes of a buffer up to `used`. -/
  | appendBuffer (p : P) (mem : List UInt8)
  | appendFile (p : P) (name : F) (offset len : ℕ)
  /-- `chunkqueue_get_append_buffer` and `chunkqueue_get_prepend_buffer`, with what is then stored
  in the buffer. -/
  | getAppendBuffer (p : P) (mem : List UInt8)
  | getPrependBuffer (p : P) (mem : List UInt8)
  | write (p : P) (replies : ℕ → Reply)
  /-- What the server does for a connection when a new second has come. -/
  | second (p : P)
  /-- `connection_reset` behind a response that has been sent. -/
  | reset (p : P)

structure Server (P F : Type) where
  conns : P → Connection F
  /-- `global_bytes_per_second_cnt`. -/
  globalCnt : ℕ

namespace Server

variable {P : Type} [DecidableEq P]

def setConn (s : Server P F) (p : P) (con : Connection F) : Server P F :=
  {s with conns := Function.update s.conns p con}

/-- A chunk is put behind the others of the connection `p`. -/
def append (s : Server P F) (p : P) (kind : Kind F) : Server P F :=
  s.setConn p {s.conns p with writeQueue := (s.conns p).writeQueue ++ [⟨kind, 0⟩]}

def prepend (s : Server P F) (p : P) (kind : Kind F) : Server P F :=
  s.setConn p {s.conns p with writeQueue := ⟨kind, 0⟩ :: (s.conns p).writeQueue}

/-- Nothing is written to a connection behind an error. -/
def step (conf : Conf P) (files : F → List UInt8) (s : Server P F) :
    Action P F → Option (Server P F)
  | .appendMem p mem =>
      some (if mem = [] then s else s.append p (.mem (mem.dropLast ++ [0])))
  | .appendBuffer p mem =>
      some (if mem = [] then s else s.append p (.mem (mem.dropLast ++ [0])))
  | .appendFile p name offset len =>
      some (if len = 0 then s else s.append p (.file name offset len none))
  | .getAppendBuffer p mem => some (s.append p (.mem mem))
  | .getPrependBuffer p mem => some (s.prepend p (.mem mem))
  | .write p replies =>
      if (s.conns p).ret < 0 then none
      else do
        let (con, globalCnt) ←
          networkWriteChunkqueue conf files replies p (s.conns p) s.globalCnt
        some {s.setConn p con with globalCnt := globalCnt}
  | .second p =>
      some {s.setConn p {s.conns p with bytesWrittenCurSecond := 0} with globalCnt := 0}
  | .reset p =>
      if (s.conns p).writeQueue = [] then
        some (s.setConn p {s.conns p with bytesWritten := 0, bytesWrittenCurSecond := 0})
      else none

end Server

/-- No connection has anything to send yet. -/
def server {P : Type} [DecidableEq P] (conf : Conf P) (files : F → List UInt8) :
    Machine (Server P F) (Action P F) where
  init := ⟨fun _ => ⟨[], 0, 0, false, 1, []⟩, 0⟩
  step := Server.step conf files

end
end EmbeddedCode.ChunkQueue
