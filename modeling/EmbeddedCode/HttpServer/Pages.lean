import EmbeddedCode.HttpServer.Header
import EmbeddedCode.Server.Request

/-!
# The pages of the server with modules

`handle_get` of `http_server/server.c` and the path that `module_open` loads. Only the branches for
the index, for pictures and for modules look at the first character, and none of them looks for
other slashes.
-/
namespace EmbeddedCode.HttpServer

open Paths
open Server (bytes)

/-- What a page makes the server open: a file, by the name that `my_send_file` gets, or a module, by
the path that `dlopen` gets. -/
inductive Served where
  | file (name : Text)
  | module (path : Text)
  deriving DecidableEq, Repr

def moduleFileNameSize : ℕ := 64

def moduleOpen (moduleDir moduleName : Text) : Served := .module (moduleDir ++ slash :: moduleName)

/-- `page + 1` of an empty page lies behind its NUL. -/
def handleGet (moduleDir page : Text) : Option Served :=
  match page with
  | [] => none
  | ch :: name =>
      if page = [slash] then some (.file (bytes "./index.html"))
      else if ch = slash ∧ bytes ".png" <:+: name then some (.file name)
      else if bytes ".mp3" <:+: name then some (.file name)
      else if ch = slash ∧ dot ∉ name then
        let moduleFileName := (name ++ bytes ".so").take (moduleFileNameSize - 1)
        some (moduleOpen moduleDir moduleFileName)
      else some (.file name)

def Flat (page : Text) : Prop := page.head? = some slash ∧ slash ∉ page.tail

/-- What may be opened for a page. -/
def Served.Allowed (moduleDir page : Text) : Served → Prop
  | .file name => name = bytes "./index.html" ∨ Flat page ∧ name = page.tail
  | .module path => Flat page ∧ path = moduleDir ++ slash :: (page.tail ++ bytes ".so")

/-- The pages for which nothing else is opened. -/
def Safe (page : Text) : Prop :=
  page = [slash] ∨ (page ≠ [] ∧ page.tail = bytes "./index.html") ∨
    Flat page ∧ (dot ∉ page.tail → page.tail.length + 3 < moduleFileNameSize)

variable {name : Text}

theorem dot_mem_of_png (h : bytes ".png" <:+: name) : dot ∈ name := h.subset (by decide)

theorem dot_mem_of_mp3 (h : bytes ".mp3" <:+: name) : dot ∈ name := h.subset (by decide)

/-- The name of a module is kept when there is room for its NUL. -/
theorem take_moduleName_eq_iff : (name ++ bytes ".so").take (moduleFileNameSize - 1) =
    name ++ bytes ".so" ↔ name.length + 3 < moduleFileNameSize := by
  rw [List.take_eq_self_iff, List.length_append]
  change name.length + 3 ≤ 63 ↔ name.length + 3 < 64
  omega

variable {ch : UInt8}

/-- A file is opened under its own name, and its name has a dot when it follows a slash. -/
theorem file_allowed_iff (moduleDir : Text) (hindex : ch :: name ≠ [slash])
    (hdot : ch = slash → dot ∈ name) :
    (Served.file name).Allowed moduleDir (ch :: name) ↔ Safe (ch :: name) := by
  constructor
  · rintro (hname | ⟨hflat, -⟩)
    · exact Or.inr (Or.inl ⟨List.cons_ne_nil ch name, hname⟩)
    · have hslash : ch = slash := Option.some.inj hflat.1
      exact Or.inr (Or.inr ⟨hflat, fun hno => absurd (hdot hslash) hno⟩)
  · rintro (hpage | ⟨-, hname⟩ | ⟨hflat, -⟩)
    · exact absurd hpage hindex
    · exact Or.inl hname
    · exact Or.inr ⟨hflat, rfl⟩

/-- A module is opened under its own name when that name fits. -/
theorem module_allowed_iff (moduleDir : Text) (hindex : ch :: name ≠ [slash])
    (hdot : dot ∉ name) :
    (moduleOpen moduleDir ((name ++ bytes ".so").take (moduleFileNameSize - 1))).Allowed
      moduleDir (ch :: name) ↔ Safe (ch :: name) := by
  have hpath : moduleDir ++ slash :: (name ++ bytes ".so").take (moduleFileNameSize - 1) =
      moduleDir ++ slash :: (name ++ bytes ".so") ↔ name.length + 3 < moduleFileNameSize := by
    rw [List.append_cancel_left_eq, List.cons_inj_right, take_moduleName_eq_iff]
  constructor
  · rintro ⟨hflat, heq⟩
    exact Or.inr (Or.inr ⟨hflat, fun _ => hpath.1 heq⟩)
  · rintro (hpage | ⟨-, hname⟩ | ⟨hflat, hfits⟩)
    · exact absurd hpage hindex
    · have hname : name = bytes "./index.html" := hname
      rw [hname] at hdot
      exact absurd (by decide) hdot
    · exact ⟨hflat, hpath.2 (hfits hdot)⟩

theorem handleGet_allowed_iff (moduleDir page : Text) :
    (∃ served, handleGet moduleDir page = some served ∧ served.Allowed moduleDir page) ↔
      Safe page := by
  cases page with
  | nil => simp [handleGet, Safe, Flat]
  | cons ch name =>
      by_cases hindex : ch :: name = [slash]
      · rw [hindex]
        exact ⟨fun _ => Or.inl rfl, fun _ => ⟨.file (bytes "./index.html"), rfl, Or.inl rfl⟩⟩
      by_cases hmodule : ch = slash ∧ dot ∉ name
      -- a name without a dot is neither a picture nor a song
      · have hpng : ¬ (ch = slash ∧ bytes ".png" <:+: name) :=
          fun h => hmodule.2 (dot_mem_of_png h.2)
        have hmp3 : ¬ bytes ".mp3" <:+: name := fun h => hmodule.2 (dot_mem_of_mp3 h)
        have hserved : handleGet moduleDir (ch :: name) = some (moduleOpen moduleDir
            ((name ++ bytes ".so").take (moduleFileNameSize - 1))) := by
          simp only [handleGet, if_neg hindex, if_neg hpng, if_neg hmp3, if_pos hmodule]
        simp only [hserved, Option.some.injEq, exists_eq_left']
        exact module_allowed_iff moduleDir hindex hmodule.2
      -- the three remaining branches open the same file
      · have hserved : handleGet moduleDir (ch :: name) = some (.file name) := by
          simp only [handleGet, if_neg hindex, if_neg hmodule, ite_self]
        have hdot : ch = slash → dot ∈ name := fun hslash =>
          Decidable.not_not.1 fun hno => hmodule ⟨hslash, hno⟩
        simp only [hserved, Option.some.injEq, exists_eq_left']
        exact file_allowed_iff moduleDir hindex hdot

/-- A song in the directory above is opened. -/
theorem handleGet_parent :
    handleGet (bytes "modules") (bytes "/../song.mp3") = some (.file (bytes "../song.mp3")) ∧
      ¬ (Served.file (bytes "../song.mp3")).Allowed (bytes "modules") (bytes "/../song.mp3") := by
  refine ⟨by decide, ?_⟩
  rintro (hname | ⟨hflat, -⟩)
  · exact absurd hname (by decide)
  · exact hflat.2 (by decide)

end EmbeddedCode.HttpServer
