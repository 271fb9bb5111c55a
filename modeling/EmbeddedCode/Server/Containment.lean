import EmbeddedCode.Server.Tokens

/-!
# Which requests stay in the directories of the server

The paths come from the client. They leave the directory of the documents, or that of the CGI
programs, unless the names in them lead back, and a program without the suffix `.cgi` is looked
for elsewhere from the start.
-/
namespace EmbeddedCode.Server

open Paths

/-- A file is opened in the directory of the documents, and a program executed in that of the CGI
programs. -/
def Call.Inside (env : Env) : Call → Prop
  | .openFile file => env.docRoot <+: file
  | .exec program => env.cgiBin <+: program

instance (env : Env) : (call : Call) → Decidable (call.Inside env)
  | .openFile _ => inferInstanceAs (Decidable (_ <+: _))
  | .exec _ => inferInstanceAs (Decidable (_ <+: _))

/-- The directories from which a program is looked for outside of `cgi-bin`. -/
def Env.programDirs (env : Env) (name : Text) : List Dir :=
  if bytes ".cgi" <:+: name then [env.cwd]
  else if name = [] then []
  else if slash ∈ name then [startDir env.cwd name]
  else env.path.map fun dir => if dir = [] then env.cwd else resolve env.cwd (dir ++ [slash])

/-- The condition on the name of a program. In `cgi-bin` it leads back there, and from another
directory it leads there. -/
def StaysInCgiBin (env : Env) (name : Text) : Prop :=
  if bytes ".cgi" <:+: name ∧ env.chdir = true then
    Rejoins env.cgiBin (reduce (segments name))
  else ∀ dir ∈ env.programDirs name, env.cgiBin <+: (reduce (segments name)).target dir

/-- The condition on the parameter of `up_sendfile`. -/
def Stays (env : Env) (parameter : Text) : Prop :=
  if bytes "cgi-bin/" <+: parameter then StaysInCgiBin env (parameter.drop 8)
  else dot ∈ parameter → Rejoins env.docRoot (reduce (segments parameter))

variable {env : Env} {parameter name text rest buf request : Text} {calls : List Call}

theorem snprintf_of_lt {size : ℕ} (h : text.length < size) : snprintf size text = text :=
  List.take_of_length_le (by omega)

/-! ## The programs -/

theorem resolve_here (dir : Dir) (name : Text) :
    resolve dir (bytes "./" ++ name) = walk dir (segments name) := by
  have hsplit : bytes "./" ++ name = [dot] ++ slash :: name := rfl
  have hdot : segments [dot] = [] := by decide
  rw [resolve, hsplit, segments_append, hdot, List.nil_append]
  rfl

theorem execlp_here (cwd : Dir) (name : Text) :
    execlp env cwd (bytes "./" ++ name) = [.exec (walk cwd (segments name))] := by
  have hne : bytes "./" ++ name ≠ [] := List.append_ne_nil_of_left_ne_nil (by decide) _
  have hmem : slash ∈ bytes "./" ++ name := List.mem_append_left _ (by decide)
  rw [execlp, if_neg hne, if_pos hmem, resolve_here]

theorem mem_execlp {call : Call} (hcgi : ¬ bytes ".cgi" <:+: name) :
    call ∈ execlp env env.cwd name ↔
      ∃ dir ∈ env.programDirs name, call = .exec (walk dir (segments name)) := by
  unfold execlp Env.programDirs
  rw [if_neg hcgi]
  split_ifs with hnil hslash
  · simp
  · simp [resolve]
  · have hstart : startDir env.cwd name = env.cwd := by
      have hhead : name.head? ≠ some slash := fun h => hslash (List.mem_of_head? h)
      rw [startDir, if_neg hhead]
    have hdir : ∀ dir : Text,
        resolve env.cwd (if dir = [] then name else dir ++ slash :: name) =
          walk (if dir = [] then env.cwd else resolve env.cwd (dir ++ [slash]))
            (segments name) := by
      intro dir
      split_ifs
      · rw [resolve, hstart]
      · exact resolve_append env.cwd dir name
    simp only [List.mem_map, hdir]
    constructor
    · rintro ⟨dir, hmem, rfl⟩
      exact ⟨_, ⟨dir, hmem, rfl⟩, rfl⟩
    · rintro ⟨_, ⟨dir, hmem, rfl⟩, rfl⟩
      exact ⟨dir, hmem, rfl⟩

theorem cgiHandler_inside_iff (hlen : name.length + 2 < bufSize) :
    (∀ call ∈ cgiHandler env name, call.Inside env) ↔ StaysInCgiBin env name := by
  have hfull : (bytes "./" ++ name).length < bufSize := by
    rw [List.length_append, Nat.add_comm]
    exact hlen
  unfold cgiHandler StaysInCgiBin
  rw [snprintf_of_lt hfull, snprintf_of_lt (by omega)]
  by_cases hcgi : bytes ".cgi" <:+: name
  · rw [if_pos hcgi, execlp_here, List.forall_mem_singleton]
    by_cases hchdir : env.chdir = true
    · have hboth : bytes ".cgi" <:+: name ∧ env.chdir = true := ⟨hcgi, hchdir⟩
      rw [if_pos hchdir, if_pos hboth, ← prefix_target_iff, ← walk_eq_target]
      rfl
    · have hnot : ¬ (bytes ".cgi" <:+: name ∧ env.chdir = true) := fun h => hchdir h.2
      rw [if_neg hchdir, if_neg hnot, Env.programDirs, if_pos hcgi, List.forall_mem_singleton,
        ← walk_eq_target]
      rfl
  · rw [if_neg hcgi, if_neg (fun h => hcgi h.1)]
    constructor
    · intro h dir hdir
      rw [← walk_eq_target]
      exact h _ ((mem_execlp hcgi).mpr ⟨dir, hdir, rfl⟩)
    · intro h call hcall
      obtain ⟨dir, hdir, rfl⟩ := (mem_execlp hcgi).mp hcall
      have hinside := h dir hdir
      rwa [← walk_eq_target] at hinside

/-! ## The files -/

theorem upSendfile_inside_iff (hlen : parameter.length < pathSize) :
    (∀ call ∈ upSendfile env parameter, call.Inside env) ↔
      Stays env (if parameter = [] then bytes "index.html" else parameter) := by
  have hlen' : (if parameter = [] then bytes "index.html" else parameter).length < pathSize := by
    split_ifs
    · decide
    · exact hlen
  unfold upSendfile
  generalize (if parameter = [] then bytes "index.html" else parameter) = name at *
  simp only
  unfold Stays
  split_ifs with hcgi hdot
  · apply cgiHandler_inside_iff
    rw [List.length_drop]
    unfold pathSize at hlen'
    unfold bufSize
    omega
  · have hroot := env.docRootPath_lt
    have hfull : (env.docRootPath ++ slash :: name).length < bufSize - 1 := by
      rw [List.length_append, List.length_cons]
      unfold pathSize at hroot hlen'
      unfold bufSize
      omega
    rw [snprintf_of_lt hfull, List.forall_mem_singleton, resolve_append, walk_eq_target]
    exact (prefix_target_iff _ _).trans ⟨fun h _ => h, fun h => h hdot⟩
  · exact ⟨fun _ h => absurd h hdot, fun _ => List.forall_mem_nil _⟩

/-- The default document stays, and so does the empty parameter that it stands for. -/
theorem stays_default : Stays env (if parameter = [] then bytes "index.html" else parameter) ↔
    Stays env parameter := by
  split_ifs with hnil
  · have hcgi : ¬ bytes "cgi-bin/" <+: bytes "index.html" := by decide
    have hindex : reduce (segments (bytes "index.html")) = ⟨0, [bytes "index.html"]⟩ := by decide
    rw [hnil, Stays, Stays, if_neg hcgi, if_neg (by decide), hindex]
    simp [Rejoins]
  · rfl

/-! ## The requests -/

/-- The second word of a request, without its first byte. -/
def uriText (received : Text) : Text :=
  ((words (received.takeWhile (· != 0))).tail.headD []).drop 1

theorem fit_iff (text : Text) (n : ℕ) :
    (∀ w ∈ (words text).take (n + 1), w.length < pathSize) ↔
      (firstWord text).length < pathSize ∧
        ∀ w ∈ (words (behindWord text)).take n, w.length < pathSize := by
  refine ⟨fit_behind, fun ⟨hfirst, hrest⟩ => ?_⟩
  by_cases hword : firstWord text = []
  · rw [words_nil hword]
    simp
  · rw [words_eq hword, List.take_succ_cons, List.forall_mem_cons]
    exact ⟨hfirst, hrest⟩

theorem scanWord_none (h : ¬ (firstWord text).length < pathSize) : scanWord text = none := if_neg h

theorem uriParameter_of_fit {received : Text} (h : WordsFit received) :
    uriParameter received = some (uriText received) := by
  obtain ⟨hends, hfit⟩ := h
  rw [uriParameter, if_pos hends, uriText, words_tail, words_headD]
  generalize received.takeWhile (· != 0) = ys at hfit ⊢
  obtain ⟨hmethod, hfit⟩ := (fit_iff _ _).mp hfit
  obtain ⟨huri, hfit⟩ := (fit_iff _ _).mp hfit
  obtain ⟨hversion, -⟩ := (fit_iff _ _).mp hfit
  simp only [scanWord_eq hmethod, scanWord_eq huri, scanWord_eq hversion, Option.bind_some,
    Option.map_some]

theorem uriParameter_of_not_fit {received : Text} (h : ¬ WordsFit received) :
    uriParameter received = none := by
  unfold uriParameter
  split_ifs with hends
  · have hnot := fun hfit => h ⟨hends, hfit⟩
    clear h hends
    generalize received.takeWhile (· != 0) = ys at hnot ⊢
    by_cases hmethod : (firstWord ys).length < pathSize
    · by_cases huri : (firstWord (behindWord ys)).length < pathSize
      · have hversion : ¬ (firstWord (behindWord (behindWord ys))).length < pathSize := fun hlt =>
          hnot ((fit_iff _ _).mpr ⟨hmethod, (fit_iff _ _).mpr ⟨huri, (fit_iff _ _).mpr
            ⟨hlt, by simp⟩⟩⟩)
        simp only [scanWord_eq hmethod, scanWord_eq huri, scanWord_none hversion, Option.bind_some,
          Option.map_none]
      · simp only [scanWord_eq hmethod, scanWord_none huri, Option.bind_some, Option.bind_none]
    · rw [scanWord_none hmethod, Option.bind_none]
  · rfl

theorem uriText_length {received : Text} (h : WordsFit received) :
    (uriText received).length < pathSize := by
  have hsecond := ((fit_iff _ _).mp ((fit_iff _ _).mp h.2).2).1
  rw [uriText, words_tail, words_headD, List.length_drop]
  omega

/-- What a request makes the server open and execute lies in its directories, without a word beyond
its array, exactly if its words fit and the parameter meets the condition. -/
theorem contained_iff (env : Env) (request : Text) :
    (∃ calls, clientHandler2 env request = some calls ∧ ∀ call ∈ calls, call.Inside env) ↔
      WordsFit (request.take ioBufSize) ∧ Stays env (uriText (request.take ioBufSize)) := by
  unfold clientHandler2
  by_cases hnil : request.take ioBufSize = []
  · rw [if_pos hnil, hnil]
    refine iff_of_true ⟨[], rfl, List.forall_mem_nil _⟩ ⟨⟨.inl (by decide), by simp [words]⟩, ?_⟩
    intro hdot
    cases hdot
  · rw [if_neg hnil]
    by_cases hfit : WordsFit (request.take ioBufSize)
    · rw [uriParameter_of_fit hfit, and_iff_right hfit, Option.map_some, ← stays_default,
        ← upSendfile_inside_iff (uriText_length hfit)]
      simp
    · rw [uriParameter_of_not_fit hfit]
      exact iff_of_false (by simp) fun h => hfit h.1

/-- The server in its directory, as it comes. -/
def deployed : Env where
  cwd := [bytes "http", bytes "server"]
  docRootPath := bytes "../www"
  docRootPath_lt := by decide
  path := [bytes "/bin"]
  chdir := true

/-- The configuration of the server lies beside the directory of the documents. -/
theorem leaves_directories :
    ¬ ∀ env request calls, clientHandler2 env request = some calls →
      ∀ call ∈ calls, call.Inside env := by
  intro h
  have hconf : clientHandler2 deployed (bytes "GET /../uphttpd.conf HTTP/1.0") =
      some [.openFile [bytes "http", bytes "uphttpd.conf"]] := by decide
  have hinside := h deployed _ _ hconf _ List.mem_cons_self
  revert hinside
  decide

end EmbeddedCode.Server
