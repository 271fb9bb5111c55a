import EmbeddedCode.Server.Request
import Mathlib.Data.List.TakeWhile

/-!
# The type of a file

`up_sendfile` of `3http_V04/src/uphttpd.c` looks for the extension with `strstr`, which finds the
first dot of the whole path. The extension is the last one only if no other dot comes before it.
-/
namespace EmbeddedCode.Server

open Paths

def mimetypes : List (Text × Text) :=
  [(bytes ".html", bytes "text/html"),
   (bytes ".htm", bytes "text/html"),
   (bytes ".css", bytes "text/css"),
   (bytes ".js", bytes "text/javascript"),
   (bytes ".txt", bytes "text/plain"),
   (bytes ".jpg", bytes "image/jpeg"),
   (bytes ".jpeg", bytes "image/jpeg"),
   (bytes ".png", bytes "image/png"),
   (bytes ".gif", bytes "image/gif"),
   (bytes ".ico", bytes "image/x-icon"),
   (bytes ".swf", bytes "application/x-shockwave-flash"),
   (bytes ".cab", bytes "application/x-shockwave-flash"),
   (bytes ".jar", bytes "application/java-archive"),
   (bytes ".mp3", bytes "audio/mpeg")]

/-- `strstr(parameter, ".")` -/
def findExtension (parameter : Text) : Option Text :=
  if dot ∈ parameter then some (parameter.dropWhile (· != dot)) else none

def findMimetype (extension : Text) : Text :=
  match mimetypes.find? fun entry => entry.1 = extension with
  | some entry => entry.2
  | none => bytes "application/octet-stream"

/-- The type that `up_sendfile` puts into its header, if it sends a file. -/
def mimetype (parameter : Text) : Option Text :=
  let parameter := if parameter = [] then bytes "index.html" else parameter
  if bytes "cgi-bin/" <+: parameter then none
  else (findExtension parameter).map findMimetype

variable {parameter name : Text} {entry : Text × Text}

/-- A type is selected for the requests that open a file. -/
theorem mimetype_isSome (env : Env) (hcgi : ¬ bytes "cgi-bin/" <+: parameter) :
    (mimetype parameter).isSome = true ↔ ∃ file, upSendfile env parameter = [.openFile file] := by
  have hdefault :
      ¬ bytes "cgi-bin/" <+: (if parameter = [] then bytes "index.html" else parameter) := by
    split_ifs
    · decide
    · exact hcgi
  simp only [mimetype, upSendfile, if_neg hdefault, findExtension]
  split_ifs <;> simp

/-- The extensions of the table are different, and start with their only dot. -/
theorem mimetypes_extension : ∀ entry ∈ mimetypes, findMimetype entry.1 = entry.2 ∧
    entry.1.head? = some dot ∧ dot ∉ entry.1.tail ∧
    entry.2 ≠ bytes "application/octet-stream" := by decide

theorem findMimetype_eq (h : findMimetype name ≠ bytes "application/octet-stream") :
    ∃ entry ∈ mimetypes, entry.1 = name := by
  simp only [findMimetype] at h
  cases hfind : mimetypes.find? fun entry => entry.1 = name with
  | none => simp [hfind] at h
  | some entry =>
      have hname : entry.1 = name := by simpa using List.find?_some hfind
      exact ⟨entry, List.mem_of_find?_eq_some hfind, hname⟩

/-- The type of a file is that of its last extension exactly when there is no dot before it. -/
theorem mimetype_iff (name : Text) (hentry : entry ∈ mimetypes)
    (hcgi : ¬ bytes "cgi-bin/" <+: name ++ entry.1) :
    mimetype (name ++ entry.1) = some entry.2 ↔ dot ∉ name := by
  obtain ⟨hmime, hhead, htail, hother⟩ := mimetypes_extension entry hentry
  obtain ⟨rest, hrest⟩ := List.head?_eq_some_iff.mp hhead
  have hne : name ++ entry.1 ≠ [] := by simp [hrest]
  have hdot : dot ∈ name ++ entry.1 := by simp [hrest]
  simp only [mimetype, if_neg hne, if_neg hcgi, findExtension, if_pos hdot, Option.map_some,
    Option.some.injEq]
  have hskip : ∀ us : Text, dot ∉ us → ∀ vs : Text,
      (us ++ dot :: vs).dropWhile (· != dot) = dot :: vs := by
    intro us hus vs
    rw [List.dropWhile_append_of_pos fun c hc => by simpa using ne_of_mem_of_not_mem hc hus,
      List.dropWhile_cons_of_neg (by simp)]
  constructor
  · -- An extension with a second dot is not in the table.
    intro hselected hmem
    obtain ⟨us, vs, rfl, hus⟩ := List.eq_append_cons_of_mem hmem
    rw [List.append_assoc, List.cons_append, hskip us hus] at hselected
    obtain ⟨other, hother', hname⟩ := findMimetype_eq (hselected ▸ hother)
    apply (mimetypes_extension other hother').2.2.1
    rw [hname, List.tail_cons, hrest]
    simp
  · intro hmem
    rw [hrest, hskip name hmem, ← hrest]
    exact hmime

/-- The type of a page in a directory. -/
theorem mimetype_iff_html :
    mimetype (bytes "news/today" ++ bytes ".html") = some (bytes "text/html") ↔
      dot ∉ bytes "news/today" := by
  have hentry : (bytes ".html", bytes "text/html") ∈ mimetypes := by decide
  exact mimetype_iff (bytes "news/today") hentry (by decide)

/-- A script with two dots in its name. -/
theorem mimetype_min : ∃ name, ∃ entry ∈ mimetypes, ¬ bytes "cgi-bin/" <+: name ++ entry.1 ∧
    mimetype (name ++ entry.1) = some (bytes "application/octet-stream") ∧
    mimetype (name ++ entry.1) ≠ some entry.2 :=
  ⟨bytes "js/jquery.min", (bytes ".js", bytes "text/javascript"), by decide, by decide, by decide,
    by decide⟩

end EmbeddedCode.Server
