import EmbeddedCode.Library.CString
import Mathlib.Data.List.Basic

/-!
# The chat server and its clients

`select_udp/server.c`, `client.c` and `protocol.h`, as far as clients register. The
server has one `struct msg_info` for all datagrams. A datagram is the front of such a
structure, and only that part of it is written when the datagram is received.
-/
namespace EmbeddedCode.Chat

/-- `BUF_SIZE` of `protocol.h` -/
def bufSize : ℕ := 1024

def maxNameSize : ℕ := 24

def srvId : UInt8 := 0

inductive MsgType where
  | err
  | reg
  | chat
  | broad
  | quit
  | list
  | info
  /-- A byte that stands for no message type. -/
  | unknown (mtype : UInt8)
  deriving DecidableEq, Repr

structure MsgInfo where
  mtype : MsgType
  srcUid : UInt8
  dstUid : UInt8
  buf : List UInt8
  size : buf.length = bufSize

/-- The header of a `struct msg_info`, and the front of its `buf`. -/
structure Datagram where
  mtype : MsgType
  srcUid : UInt8
  dstUid : UInt8
  text : List UInt8
  deriving DecidableEq, Repr

/-- What a client types to register: the letter R and the name. -/
def regLine (name : CString) : CString where
  bytes := 82 :: name.bytes
  noNul := by
    rw [List.mem_cons, not_or]
    exact ⟨by decide, name.noNul⟩

/-- `reg_handler` of the client: `line` is what was typed, with the letter of the command. There
is no result if `strlen` runs over the end of `msg.buf`. -/
def regHandler (line : CString) : Option Datagram :=
  let buf := CString.strncpy bufSize line.bytes.tail
  if 0 ∈ buf then some ⟨.reg, 0, 0, buf.takeWhile (· != 0)⟩ else none

inductive Status where
  | onLine
  | offLine
  deriving DecidableEq, Repr

structure Cli (A : Type) where
  uid : UInt8
  name : List UInt8
  cliAddr : A
  status : Status
  deriving DecidableEq, Repr

structure ServerInfo (A : Type) where
  list : List (Cli A)
  count : Int32

/-- A message of the server to a client, without its text. -/
structure Notice (A : Type) where
  addr : A
  mtype : MsgType
  srcUid : UInt8
  dstUid : UInt8

variable {A : Type}

def serverInit : ServerInfo A := ⟨[], 0⟩

/-- The new client is linked at the tail, and every client is told. -/
def userAdd (server : ServerInfo A) (username : List UInt8) (cliAddr : A) :
    ServerInfo A × List (Notice A) :=
  let count := server.count + 1
  let cliNode : Cli A :=
    ⟨count.toInt8.toUInt8, CString.strncpy maxNameSize username, cliAddr, .onLine⟩
  let list := server.list ++ [cliNode]
  (⟨list, count⟩, list.map fun pcli => ⟨pcli.cliAddr, .info, srvId, pcli.uid⟩)

def cliHandler (server : ServerInfo A) (cliAddr : A) (mesg : MsgInfo) :
    ServerInfo A × List (Notice A) :=
  match mesg.mtype with
  | .reg => userAdd server mesg.buf cliAddr
  | _ => (server, [])

/-- `recvfrom` into the structure. There is no result if the datagram does not fit. -/
def recvfrom (buf : MsgInfo) (datagram : Datagram) : Option MsgInfo :=
  if h : datagram.text.length ≤ bufSize then
    some {
      mtype := datagram.mtype
      srcUid := datagram.srcUid
      dstUid := datagram.dstUid
      buf := datagram.text ++ buf.buf.drop datagram.text.length
      size := by
        have := buf.size
        rw [List.length_append, List.length_drop]
        omega }
  else none

/-- The variables of `main`, and what the server has sent. -/
structure Main (A : Type) where
  server : ServerInfo A
  buf : MsgInfo
  sent : List (Notice A)

/-- `main` before its loop. -/
def mainInit : Main A where
  server := serverInit
  buf := ⟨.err, 0, 0, List.replicate bufSize 0, List.length_replicate⟩
  sent := []

/-- One turn of the loop of `main`. -/
def mainTurn (s : Main A) (received : A × Datagram) : Option (Main A) := do
  let buf ← recvfrom s.buf received.2
  let (server, notices) := cliHandler s.server received.1 buf
  some ⟨server, buf, s.sent ++ notices⟩

end EmbeddedCode.Chat
