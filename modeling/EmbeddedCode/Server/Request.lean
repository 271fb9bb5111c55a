import EmbeddedCode.Library.Paths

/-!
# What a request makes the server open and execute

`client_handler2` and `up_sendfile` of `3http_V04/src/uphttpd.c`, and the child of `cgi_handler`
in `up_cgi.c`. A call to `open`, and each attempt of `execlp`, is given by the path that it gets,
with its `.` and `..` resolved as text. Which of these files exist is left open.
-/
namespace EmbeddedCode.Server

open Paths

abbrev Text := List UInt8

abbrev Dir := List Text

def bytes (s : String) : Text := s.toList.map fun ch => ch.toNat.toUInt8

def bufSize : ℕ := 1024

def ioBufSize : ℕ := 16 * 1024

def pathSize : ℕ := 128

/-- What the server finds in its surroundings. -/
structure Env where
  /-- The working directory of the server. -/
  cwd : Dir
  /-- `up_conf.doc_root_path`, with room for its NUL. -/
  docRootPath : Text
  docRootPath_lt : docRootPath.length < pathSize
  /-- The directories of `PATH`, where an empty one is the working directory. -/
  path : List Text
  /-- Whether `chdir("../cgi-bin/")` succeeds. -/
  chdir : Bool

inductive Call where
  | openFile (file : Dir)
  | exec (program : Dir)
  deriving DecidableEq, Repr

namespace Env

/-- The directory of the documents, with the slash that `up_sendfile` puts behind it. -/
def docRoot (env : Env) : Dir := resolve env.cwd (env.docRootPath ++ [slash])

def cgiBin (env : Env) : Dir := resolve env.cwd (bytes "../cgi-bin/")

end Env

/-- What `snprintf` leaves in a buffer. -/
def snprintf (size : ℕ) (text : Text) : Text := text.take (size - 1)

/-! ## `cgi_handler` -/

def execlp (env : Env) (cwd : Dir) (file : Text) : List Call :=
  if file = [] then []
  else if slash ∈ file then [.exec (resolve cwd file)]
  else env.path.map fun dir =>
    .exec (resolve cwd (if dir = [] then file else dir ++ slash :: file))

/-- The child of `cgi_handler`. -/
def cgiHandler (env : Env) (parameter : Text) : List Call :=
  if bytes ".cgi" <:+: parameter then
    let cwd := if env.chdir then env.cgiBin else env.cwd
    execlp env cwd (snprintf bufSize (bytes "./" ++ parameter))
  else execlp env env.cwd (snprintf bufSize parameter)

/-! ## `up_sendfile` -/

def upSendfile (env : Env) (parameter : Text) : List Call :=
  let parameter := if parameter = [] then bytes "index.html" else parameter
  if bytes "cgi-bin/" <+: parameter then cgiHandler env (parameter.drop 8)
  -- A name without an extension is answered with an error.
  else if dot ∈ parameter then
    let buffer := snprintf (bufSize - 1) (env.docRootPath ++ slash :: parameter)
    [.openFile (resolve env.cwd buffer)]
  else []

/-! ## `client_handler2` -/

def isSpace (ch : UInt8) : Bool := ch == 32 || (9 ≤ ch && ch ≤ 13)

/-- One `%s` of `sscanf` into an array of `PATH_SIZE` bytes: what the array holds, and the text
that is left. An array without a word stays empty, and a word that does not fit is a fault. -/
def scanWord (text : Text) : Option (Text × Text) :=
  let text := text.dropWhile isSpace
  let word := text.takeWhile (!isSpace ·)
  if word.length < pathSize then some (word, text.dropWhile (!isSpace ·)) else none

/-- What `up_sendfile` gets as its parameter: the URI without its first character. The buffer is
filled with zeros before the request is read into it, and needs one of them at its end. -/
def uriParameter (buf : Text) : Option Text :=
  if buf.length < ioBufSize ∨ 0 ∈ buf then
    (scanWord (buf.takeWhile (· != 0))).bind fun (_, text) =>
    (scanWord text).bind fun (uri, text) =>
    (scanWord text).map fun _ => uri.drop 1
  else none

/-- `client_handler2` for what `read` finds on the connection. There is nothing if the peer has
closed it. -/
def clientHandler2 (env : Env) (request : Text) : Option (List Call) :=
  let buf := request.take ioBufSize
  if buf = [] then some [] else (uriParameter buf).map (upSendfile env)

end EmbeddedCode.Server
