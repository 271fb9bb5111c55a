import EmbeddedCode.Library.Loop
import EmbeddedCode.Server.Request

/-!
# The descriptors of a request

`client_handler2`, `up_sendfile` and `cgi_handler` of `3http_V04/src`, with all that the system may
answer to their calls. The descriptors that are opened and closed in the process of the server are
written down. The child of `cgi_handler` never returns, and has descriptors of its own.
-/
namespace EmbeddedCode.Server.Descriptors

open Loop Paths

/-- What `read` gives on the connection, apart from `EAGAIN`. -/
inductive Received where
  | data (text : Text)
  | closed
  | failed
  deriving DecidableEq, Repr

/-- What the calls for one request give. The calls of one kind are numbered, and a descriptor is
none of those that are open. -/
structure Outcomes (Fd : Type) where
  connFd : Fd
  /-- There is nothing when `read` fails with `EAGAIN`. -/
  readConn : ℕ → Option Received
  openFile : Option Fd
  socketpair : Option (Fd × Fd)
  /-- Whether `fork` succeeds. -/
  fork : Bool
  /-- Whether a `write` to the connection succeeds. -/
  write : ℕ → Bool
  readFile : ℕ → ℤ
  readSocket : ℕ → ℤ
  openFile_ne : ∀ fd ∈ openFile, fd ≠ connFd
  socketpair_ne : ∀ fds ∈ socketpair, fds.1 ≠ connFd ∧ fds.2 ≠ connFd ∧ fds.1 ≠ fds.2

/-- The calls that have opened and closed a descriptor, the last ones first. -/
structure Table (Fd : Type) where
  opened : List Fd
  closed : List Fd
  deriving DecidableEq, Repr

namespace Table

variable {Fd : Type}

def opening (table : Table Fd) (fd : Fd) : Table Fd := {table with opened := fd :: table.opened}

def close (table : Table Fd) (fd : Fd) : Table Fd := {table with closed := fd :: table.closed}

end Table

variable {Fd : Type}

/-- The loop that passes on what the program writes, whatever comes of `write`. -/
def copyTurn (o : Outcomes Fd) (k : ℕ) : Option (Turn ℕ Unit) :=
  if 0 < o.readSocket k then some (.again (k + 1)) else some (.leave ())

def cgiHandler (o : Outcomes Fd) (fuel : ℕ) (table : Table Fd) : Option (ℤ × Table Fd) :=
  match o.socketpair with
  | none => some (-1, table)
  | some (sockfd, sockfd') =>
      let table := (table.opening sockfd).opening sockfd'
      if o.fork then do
        let table := table.close sockfd'
        let _ ← run (copyTurn o) fuel 0
        some (0, table)
      else some (-1, table)

/-- The loop that sends the header and the file. -/
def sendTurn (o : Outcomes Fd) (k : ℕ) : Option (Turn ℕ Bool) :=
  if !o.write k then some (.leave false)
  else if 0 < o.readFile k then some (.again (k + 1))
  else some (.leave true)

/-- `send_error` opens and closes nothing. -/
def upSendfile (o : Outcomes Fd) (fuel : ℕ) (table : Table Fd) (parameter : Text) :
    Option (ℤ × Table Fd) :=
  let parameter := if parameter = [] then bytes "index.html" else parameter
  if bytes "cgi-bin/" <+: parameter then do
    let (ret, table) ← cgiHandler o fuel table
    if ret < 0 then some (-1, table) else some (0, table)
  else if dot ∉ parameter then some (-1, table)
  else match o.openFile with
    | none => some (-1, table)
    | some lfd => do
        let table := table.opening lfd
        if ← run (sendTurn o) fuel 0 then some (0, table.close lfd)
        else some (-1, table.close lfd)

/-- The jumps to `read_again`. -/
def readTurn (o : Outcomes Fd) (k : ℕ) : Option (Turn ℕ Received) :=
  match o.readConn k with
  | none => some (.again (k + 1))
  | some received => some (.leave received)

/-- A request whose words do not fit is a fault. -/
def clientHandler2 (o : Outcomes Fd) (fuel : ℕ) : Option (ℤ × Table Fd) := do
  let table : Table Fd := ⟨[], []⟩
  match ← run (readTurn o) fuel 0 with
  | .closed => some (0, table.close o.connFd)
  | .failed => some (-1, table)
  | .data text => do
      let parameter ← uriParameter (text.take ioBufSize)
      let (ret, table) ← upSendfile o fuel table parameter
      if ret < 0 then some (-1, table.close o.connFd) else some (0, table.close o.connFd)

/-- Nothing is left open: the connection has been closed once, and all others too. -/
def Table.Settled [DecidableEq Fd] (table : Table Fd) (connFd : Fd) : Prop :=
  table.closed.count connFd = 1 ∧ ∀ fd ∈ table.opened, fd ∈ table.closed

/-- What `read` gives at last does not fail, and is no request for a program that gets its
sockets. -/
def Balanced (o : Outcomes Fd) : Prop :=
  ∀ k, (∀ j < k, o.readConn j = none) → ∀ received, o.readConn k = some received →
    received ≠ .failed ∧
    ∀ text, received = .data text →
      ∀ parameter, uriParameter (text.take ioBufSize) = some parameter →
        bytes "cgi-bin/" <+: parameter → o.socketpair = none

section
variable {o : Outcomes Fd} {fuel : ℕ} {table table' : Table Fd} {parameter : Text} {ret : ℤ}
  {received : Received}

theorem run_readTurn (h : run (readTurn o) fuel 0 = some received) :
    ∃ k, (∀ j < k, o.readConn j = none) ∧ o.readConn k = some received := by
  have hstart : ∀ j < 0, o.readConn j = none := fun j hj => absurd hj (Nat.not_lt_zero j)
  refine run_some (I := fun k => ∀ j < k, o.readConn j = none)
    (Q := fun received => ∃ k, (∀ j < k, o.readConn j = none) ∧ o.readConn k = some received)
    (fun k k' hk hturn j hj => ?_) (fun k r hk hturn => ?_) hstart h
  · cases hread : o.readConn k with
    | none =>
        rw [readTurn, hread] at hturn
        obtain rfl : k + 1 = k' := by simpa using hturn
        rcases Nat.lt_succ_iff_lt_or_eq.mp hj with hlt | rfl
        · exact hk j hlt
        · exact hread
    | some r => simp [readTurn, hread] at hturn
  · cases hread : o.readConn k with
    | none => simp [readTurn, hread] at hturn
    | some r' =>
        rw [readTurn, hread] at hturn
        obtain rfl : r' = r := by simpa using hturn
        exact ⟨k, hk, hread⟩

/-- An empty parameter stands for a file. -/
theorem prefix_default :
    bytes "cgi-bin/" <+: (if parameter = [] then bytes "index.html" else parameter) ↔
      bytes "cgi-bin/" <+: parameter := by
  split_ifs with hnil
  · rw [hnil]
    decide
  · rfl

/-- The parent keeps its end of the pair. -/
theorem cgiHandler_cases (h : cgiHandler o fuel table = some (ret, table')) :
    (o.socketpair = none ∧ table' = table) ∨
      ∃ fds, o.socketpair = some fds ∧ fds.1 ∈ table'.opened ∧
        ∀ fd ∈ table'.closed, fd = fds.2 ∨ fd ∈ table.closed := by
  cases hpair : o.socketpair with
  | none =>
      simp only [cgiHandler, hpair, Option.some.injEq, Prod.mk.injEq] at h
      exact .inl ⟨rfl, h.2.symm⟩
  | some fds =>
      refine .inr ⟨fds, rfl, ?_⟩
      simp only [cgiHandler, hpair] at h
      split_ifs at h
      · obtain ⟨_, -, h⟩ := Option.bind_eq_some_iff.mp h
        cases h
        exact ⟨by simp [Table.opening, Table.close], by simp [Table.opening, Table.close]⟩
      · cases h
        exact ⟨by simp [Table.opening], fun fd hfd => .inr hfd⟩

/-- What `up_sendfile` leaves behind. -/
theorem upSendfile_cases (h : upSendfile o fuel table parameter = some (ret, table')) :
    (bytes "cgi-bin/" <+: parameter ∧ ∃ fds, o.socketpair = some fds ∧ fds.1 ∈ table'.opened ∧
        ∀ fd ∈ table'.closed, fd = fds.2 ∨ fd ∈ table.closed) ∨
      ((bytes "cgi-bin/" <+: parameter → o.socketpair = none) ∧
        (table' = table ∨ ∃ lfd ∈ o.openFile, table' = (table.opening lfd).close lfd)) := by
  simp only [upSendfile, prefix_default] at h
  generalize (if parameter = [] then bytes "index.html" else parameter) = file at h
  split_ifs at h with hcgi hdot
  · obtain ⟨⟨ret', table₁⟩, hcall, h⟩ := Option.bind_eq_some_iff.mp h
    obtain rfl : table₁ = table' := by
      split_ifs at h <;> cases h <;> rfl
    rcases cgiHandler_cases hcall with ⟨hnone, rfl⟩ | hpair
    · exact .inr ⟨fun _ => hnone, .inl rfl⟩
    · exact .inl ⟨hcgi, hpair⟩
  · refine .inr ⟨fun hcgi' => absurd hcgi' hcgi, ?_⟩
    cases hopen : o.openFile with
    | none =>
        simp only [hopen, Option.some.injEq, Prod.mk.injEq] at h
        exact .inl h.2.symm
    | some lfd =>
        rw [hopen] at h
        obtain ⟨sent, -, h⟩ := Option.bind_eq_some_iff.mp h
        refine .inr ⟨lfd, rfl, ?_⟩
        cases sent <;> cases h <;> rfl
  · cases h
    exact .inr ⟨fun hcgi' => absurd hcgi' hcgi, .inl rfl⟩

/-- Only one of the calls of `read` counts. -/
theorem balanced_iff {k : ℕ} (hagain : ∀ j < k, o.readConn j = none)
    (hk : o.readConn k = some received) :
    Balanced o ↔ received ≠ .failed ∧ ∀ text, received = .data text →
      ∀ parameter, uriParameter (text.take ioBufSize) = some parameter →
        bytes "cgi-bin/" <+: parameter → o.socketpair = none := by
  constructor
  · exact fun h => h k hagain received hk
  · intro h k' hagain' received' hk'
    rcases Nat.lt_trichotomy k k' with hlt | rfl | hlt
    · cases (hagain' k hlt).symm.trans hk
    · cases hk.symm.trans hk'
      exact h
    · cases (hagain k' hlt).symm.trans hk'

variable [DecidableEq Fd]

/-- When a request has been served, nothing is left open exactly when the calls for it were
balanced. -/
theorem request_settled_iff (h : clientHandler2 o fuel = some (ret, table)) :
    table.Settled o.connFd ↔ Balanced o := by
  obtain ⟨received, hread, h⟩ := Option.bind_eq_some_iff.mp h
  obtain ⟨k, hagain, hk⟩ := run_readTurn hread
  rw [balanced_iff hagain hk]
  cases received with
  | closed =>
      cases h
      exact iff_of_true (by simp [Table.Settled, Table.close]) (by simp)
  | failed =>
      cases h
      exact iff_of_false (by simp [Table.Settled]) (by simp)
  | data text =>
      obtain ⟨parameter, hparameter, h⟩ := Option.bind_eq_some_iff.mp h
      obtain ⟨⟨ret', table₁⟩, hsend, h⟩ := Option.bind_eq_some_iff.mp h
      obtain rfl : table₁.close o.connFd = table := by
        dsimp only at h
        split_ifs at h <;> cases h <;> rfl
      simp only [ne_eq, reduceCtorEq, not_false_eq_true, true_and, Received.data.injEq,
        forall_eq', hparameter, Option.some.injEq]
      rcases upSendfile_cases hsend with ⟨hcgi, fds, hpair, hmem, hclosed⟩ | ⟨hnone, htable⟩
      · refine iff_of_false (fun hsettled => ?_) fun hnone => ?_
        · obtain ⟨hconn, -, hne⟩ := o.socketpair_ne fds hpair
          rcases List.mem_cons.mp (hsettled.2 fds.1 hmem) with heq | hclose
          · exact hconn heq
          · rcases hclosed fds.1 hclose with heq | hnil
            · exact hne heq
            · cases hnil
        · cases hpair.symm.trans (hnone hcgi)
      · refine iff_of_true ?_ hnone
        rcases htable with rfl | ⟨lfd, hlfd, rfl⟩
        · simp [Table.Settled, Table.close]
        · have hne : lfd ≠ o.connFd := o.openFile_ne lfd hlfd
          simp [Table.Settled, Table.close, Table.opening, hne]

end

/-- A connection with the descriptor 5 and a file with the descriptor 6. -/
def outcomes (readConn : ℕ → Option Received) : Outcomes ℕ where
  connFd := 5
  readConn := readConn
  openFile := some 6
  socketpair := none
  fork := true
  write _ := true
  readFile _ := 0
  readSocket _ := 0
  openFile_ne fd h := by
    cases h
    decide
  socketpair_ne := nofun

/-- The request comes at the second call of `read`, and the file is sent. -/
theorem request_settled_file : ∃ o : Outcomes ℕ, clientHandler2 o 2 = some (0, ⟨[6], [5, 6]⟩) ∧
    ((⟨[6], [5, 6]⟩ : Table ℕ).Settled o.connFd ↔ Balanced o) := by
  let o := outcomes fun k => if k = 0 then none else some (.data (bytes "GET /a.txt HTTP/1.0"))
  have hrun : clientHandler2 o 2 = some (0, ⟨[6], [5, 6]⟩) := by decide
  exact ⟨o, hrun, request_settled_iff hrun⟩

theorem request_settled_failed : ∃ o : Outcomes ℕ, clientHandler2 o 1 = some (-1, ⟨[], []⟩) ∧
    ¬ (⟨[], []⟩ : Table ℕ).Settled o.connFd := by
  refine ⟨outcomes fun _ => some .failed, rfl, fun h => ?_⟩
  exact absurd h.1 (by decide)

end EmbeddedCode.Server.Descriptors
