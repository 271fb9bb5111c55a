import EmbeddedCode.Library.CInt
import EmbeddedCode.Library.CString
import EmbeddedCode.Library.Scan
import EmbeddedCode.Server.Request

/-!
# The configuration file

`file_parse` of `3http_V04/src/up_conf.c`. The parser reads and writes the lines in `buf` through
`p`. The bytes of `buf` before `window` may be accessed, and an access behind them gives no result,
just as fuel that is spent. Bytes from `0x80` on are no blanks.
-/
namespace EmbeddedCode.Server

open Loop
open CString (front)

def newline : UInt8 := 10

def carriage : UInt8 := 13

def hash : UInt8 := 35

def equals : UInt8 := 61

/-- `struct up_cfg_info`. The paths are arrays of `PATH_SIZE` bytes. -/
structure UpCfgInfo where
  listenPort : ℤ
  docRootPath : Text
  confFile : Text
  logFile : Text
  runAsDaemon : ℤ
  verbose : ℤ
  deriving DecidableEq, Repr

/-! ## The functions of the library -/

/-- A file that is open for reading. -/
structure File where
  rest : Text
  eof : Bool

/-- At most `size` bytes, of which only the last one may be the newline. -/
def takeLine : ℕ → Text → Text
  | 0, _ => []
  | _ + 1, [] => []
  | size + 1, c :: rest => if c = newline then [c] else c :: takeLine size rest

/-- `fgets(buf, BUF_SIZE, pf)`: the line, without the NUL that is put behind it. The end of the
file is noticed when it is met within a line. -/
def fgets (pf : File) : Option (Text × File) :=
  if pf.rest = [] then none
  else
    let line := takeLine (bufSize - 1) pf.rest
    some (line, ⟨pf.rest.drop line.length,
      line.length < bufSize - 1 && line.getLast? != some newline⟩)

def isDigit (ch : UInt8) : Bool := 48 ≤ ch && ch ≤ 57

def digits (text : Text) : ℕ :=
  (text.takeWhile isDigit).foldl (fun n ch => 10 * n + (ch.toNat - 48)) 0

/-- The number at the front of a text, behind blanks and a sign. -/
def decimal (text : Text) : ℤ :=
  match text.dropWhile isSpace with
  | 43 :: text => digits text
  | 45 :: text => -digits text
  | text => digits text

def longMin : ℤ := -9223372036854775808

def longMax : ℤ := 9223372036854775807

/-- `strtol` with base 10. A number out of the range of `long` becomes the end of the range. -/
def strtol (s : CString) : ℤ := max longMin (min longMax (decimal s.bytes))

def atoi (s : CString) : ℤ := CInt.wrap (strtol s)

def ushort (v : ℤ) : ℤ := v % 65536

def tolower (ch : UInt8) : UInt8 := if 65 ≤ ch && ch ≤ 90 then ch + 32 else ch

def strcasecmp (s t : CString) : ℤ :=
  CString.compareBytes (s.bytes.map tolower) (t.bytes.map tolower)

/-! ## `file_parse` -/

def access (window : ℕ) (buf : Text) : Text := buf.take window

def write (window : ℕ) (buf : Text) (p : ℕ) (c : UInt8) : Option Text :=
  if p < (access window buf).length then some (buf.set p c) else none

def string (window : ℕ) (buf : Text) (p : ℕ) : Option CString :=
  let text := (access window buf).drop p
  if 0 ∈ text then some (front text) else none

/-- `while (go(*p)) ++p;` -/
def skip (window fuel : ℕ) (buf : Text) (go : UInt8 → Bool) (p : ℕ) : Option ℕ :=
  run (Scan.turn (access window buf) go) fuel p

def inName (ch : UInt8) : Bool := !isSpace ch && ch != equals

def isGap (ch : UInt8) : Bool := (isSpace ch && ch != carriage && ch != newline) || ch == equals

/-- The scan of one line: `buf` and, unless the line is skipped, `name` and `val`. -/
def scanLine (window fuel : ℕ) (buf : Text) : Option (Text × Option (ℕ × ℕ)) := do
  let c ← (access window buf)[0]?
  -- An empty line, or a comment.
  if c = carriage ∨ c = newline ∨ c = hash then some (buf, none)
  else do
    let p ← skip window fuel buf isSpace 0
    let c ← (access window buf)[p]?
    if c = hash then some (buf, none)
    else do
      let name := p
      let p ← skip window fuel buf inName p
      let buf ← write window buf p 0
      let p ← skip window fuel buf isGap (p + 1)
      let val := p
      let p ← skip window fuel buf (!isSpace ·) p
      let buf ← write window buf p 0
      some (buf, some (name, val))

def literal (s : String) : CString := front (bytes s)

/-- What a name and its value do to `up_conf`. -/
def assign (upConf : UpCfgInfo) (name val : CString) : UpCfgInfo :=
  let upConf := if name.strcmp (literal "port") = 0 then
    {upConf with listenPort := ushort (atoi val)} else upConf
  let upConf := if name.strcmp (literal "doc_root") = 0 then
    {upConf with docRootPath := CString.strncpy pathSize val.bytes} else upConf
  let upConf := if name.strcmp (literal "conf_file") = 0 then
    {upConf with confFile := CString.strncpy pathSize val.bytes} else upConf
  let upConf := if name.strcmp (literal "log_file") = 0 then
    {upConf with logFile := CString.strncpy pathSize val.bytes} else upConf
  let upConf := if name.strcmp (literal "daemon") = 0 then
    {upConf with runAsDaemon := if strcasecmp val (literal "true") = 0 then 1 else 0} else upConf
  if name.strcmp (literal "verbose") = 0 then
    {upConf with verbose := if strcasecmp val (literal "true") = 0 then 1 else 0} else upConf

/-- The loop over the lines. The part of `buf` that may be accessed depends on the line. -/
def parseTurn (window : ℕ → ℕ) (fuel : ℕ) :
    File × Text × UpCfgInfo → Option (Turn (File × Text × UpCfgInfo) UpCfgInfo)
  | (pf, buf, upConf) =>
      if pf.eof then some (.leave upConf)
      else match fgets pf with
        | none => some (.leave upConf)
        | some (line, pf) => do
            let window := window line.length
            let buf := line ++ 0 :: buf.drop (line.length + 1)
            let (buf, fields) ← scanLine window fuel buf
            match fields with
            | none => some (.again (pf, buf, upConf))
            | some (name, val) => do
                let name ← string window buf name
                let val ← string window buf val
                some (.again (pf, buf, assign upConf name val))

/-- The result and `up_conf`. There is no file if `fopen` fails. -/
def fileParse (window : ℕ → ℕ) (fuel : ℕ) (file : Option Text) (upConf : UpCfgInfo) :
    Option (ℤ × UpCfgInfo) :=
  match file with
  | none => some (-1, upConf)
  | some content => do
      let upConf ← run (parseTurn window fuel) fuel
        (⟨content, false⟩, List.replicate bufSize 0, upConf)
      some (0, upConf)

/-- The line and its NUL. -/
def lineWindow (length : ℕ) : ℕ := length + 1

end EmbeddedCode.Server
