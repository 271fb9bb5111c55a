import EmbeddedCode.Library.Loop
import Mathlib.Data.List.Infix
import Mathlib.Order.Bounds.Basic

/-!
# The header of a request

The loop of `handle_connection` in `http_server/server.c`, which reads until the buffer has a blank
line. Every read overwrites the buffer from its start, so the loop sees a part of the latest reads
and what earlier ones have left behind them. Only the loop is modelled: before it the function
prints the buffer, once when no NUL has been stored in it yet, and takes the words of the request
out of it.
-/
namespace EmbeddedCode.HttpServer

open Loop

abbrev Text := List UInt8

def bufferSize : ℕ := 256

def blankLine : Text := [13, 10, 13, 10]

/-- What the calls of `read` deliver until the client closes its side or a read fails. The buffer
holds anything at first. -/
structure Client where
  chunks : List Text
  buffer : Text
  chunk_ne_nil : ∀ chunk ∈ chunks, chunk ≠ []
  chunk_le : ∀ chunk ∈ chunks, chunk.length ≤ bufferSize
  first_lt : ∀ chunk ∈ chunks.head?, chunk.length < bufferSize
  buffer_length : buffer.length = bufferSize

/-- `strstr(buffer, "\r\n\r\n") != NULL`. The buffer is searched up to its first NUL. A read can
fill it without a NUL: then the search ends at a match, and without a match it goes beyond the end
of the buffer, which is a fault. -/
def findBlankLine (buffer : Text) : Option Bool :=
  if blankLine <:+: buffer.takeWhile (· != 0) then some true
  else if 0 ∈ buffer then some false
  else none

/-- What `read` puts into the buffer. -/
def fill (chunk buffer : Text) : Text := chunk ++ buffer.drop chunk.length

/-- The state is the number of calls of `read` so far and the buffer. A read that returns 0 or -1
leaves the buffer as it is. -/
def headerTurn (client : Client) : ℕ × Text → Option (Turn (ℕ × Text) ℕ)
  | (reads, buffer) => do
      if ← findBlankLine buffer then some (.leave reads)
      else match client.chunks[reads]? with
        | none => some (.again (reads + 1, buffer))
        | some chunk => some (.again (reads + 1, fill chunk buffer))

/-- The number of calls of `read` until `handle_connection` is done with the header. The loop is not
reached if the first one delivers nothing. -/
def handleConnection (client : Client) (fuel : ℕ) : Option ℕ :=
  match client.chunks with
  | [] => some 1
  | chunk :: _ => run (headerTurn client) fuel (1, fill (chunk ++ [0]) client.buffer)

/-! ## What the loop sees -/

/-- At each position the first of some texts counts that is long enough. -/
def overlay (layers : List Text) : Text :=
  (List.range bufferSize).map fun i => (layers.findSome? (·[i]?)).getD 0

/-- The buffer after some reads: the reads from the last to the first one, which gets a NUL, and
what was there before. -/
def Client.layers (client : Client) (reads : ℕ) : List Text :=
  ((client.chunks.take reads).modifyHead (· ++ [0])).reverse ++ [client.buffer]

section
variable {client : Client} {chunk buffer : Text} {layers : List Text} {reads n : ℕ}

theorem length_overlay (layers : List Text) : (overlay layers).length = bufferSize := by
  simp [overlay]

theorem overlay_singleton (h : buffer.length = bufferSize) : overlay [buffer] = buffer := by
  apply List.ext_getElem
  · rw [length_overlay, h]
  · intro i hi hi'
    simp [overlay, List.getElem?_eq_getElem hi']

theorem overlay_cons (h : chunk.length ≤ bufferSize) :
    overlay (chunk :: layers) = fill chunk (overlay layers) := by
  apply List.ext_getElem
  · simp only [fill, List.length_append, List.length_drop, length_overlay]
    omega
  · intro i hi hi'
    rcases Nat.lt_or_ge i chunk.length with hlt | hge
    · simp [overlay, fill, List.getElem_append_left hlt, List.getElem?_eq_getElem hlt]
    · simp [overlay, fill, List.getElem_append_right hge, hge]

theorem layers_succ (hpos : 0 < reads) (h : client.chunks[reads]? = some chunk) :
    client.layers (reads + 1) = chunk :: client.layers reads := by
  have htake : client.chunks.take (reads + 1) = client.chunks.take reads ++ [chunk] := by
    rw [List.take_add_one, h, Option.toList_some]
  have hne : client.chunks.take reads ≠ [] := by
    intro hnil
    rw [List.take_eq_nil_iff] at hnil
    rcases hnil with rfl | hnil
    · exact Nat.lt_irrefl 0 hpos
    · simp [hnil] at h
  obtain ⟨first, rest, hrest⟩ := List.exists_cons_of_ne_nil hne
  simp [Client.layers, htake, hrest]

theorem layers_end (h : client.chunks[reads]? = none) :
    client.layers (reads + 1) = client.layers reads := by
  simp only [Client.layers, List.take_add_one, h, Option.toList_none, List.append_nil]

/-- The buffer after some reads. -/
def Client.seen (client : Client) (reads : ℕ) : Text := overlay (client.layers reads)

theorem seen_one {rest : List Text} (h : client.chunks = chunk :: rest) :
    client.seen 1 = fill (chunk ++ [0]) client.buffer := by
  have hlt : chunk.length < bufferSize := client.first_lt chunk (by simp [h])
  have hlayers : client.layers 1 = [chunk ++ [0], client.buffer] := by simp [Client.layers, h]
  rw [Client.seen, hlayers, overlay_cons (by simpa using Nat.succ_le_of_lt hlt),
    overlay_singleton client.buffer_length]

/-- A turn of the loop tests the buffer, and goes on with the next read. -/
theorem headerTurn_eq (hpos : 0 < reads) : headerTurn client (reads, client.seen reads) =
    (findBlankLine (client.seen reads)).map fun found =>
      if found then .leave reads else .again (reads + 1, client.seen (reads + 1)) := by
  have hnext : client.seen (reads + 1) = match client.chunks[reads]? with
      | none => client.seen reads
      | some chunk => fill chunk (client.seen reads) := by
    cases h : client.chunks[reads]? with
    | none => rw [Client.seen, layers_end h, Client.seen]
    | some chunk =>
        rw [Client.seen, layers_succ hpos h,
          overlay_cons (client.chunk_le chunk (List.mem_of_getElem? h)), Client.seen]
  simp only [headerTurn, hnext]
  cases findBlankLine (client.seen reads) with
  | none => rfl
  | some found =>
      cases found with
      | true => rfl
      | false => cases client.chunks[reads]? <;> rfl

/-- The loop leaves when the buffer shows a blank line for the first time. -/
theorem handleConnection_iff (hne : client.chunks ≠ []) :
    Returns (handleConnection client) n ↔ 0 < n ∧ findBlankLine (client.seen n) = some true ∧
      ∀ m, 0 < m → m < n → findBlankLine (client.seen m) = some false := by
  obtain ⟨chunk, rest, hchunks⟩ := List.exists_cons_of_ne_nil hne
  have hrun : handleConnection client =
      fun fuel => run (headerTurn client) fuel (1, client.seen 1) := by
    funext fuel
    simp only [handleConnection, hchunks, seen_one hchunks]
  have hfirst : Returns (fun fuel => run (headerTurn client) fuel (1, client.seen 1)) n ↔ _ :=
    returns_iff_first (s := fun reads => (reads, client.seen reads)) (r := id)
      fun reads hle => headerTurn_eq hle
  rw [hrun, hfirst]
  constructor
  · rintro ⟨_, hpos, rfl, hfound, hbefore⟩
    exact ⟨hpos, hfound, hbefore⟩
  · rintro ⟨hpos, hfound, hbefore⟩
    exact ⟨n, hpos, rfl, hfound, hbefore⟩

/-- The buffer shows a blank line before its first NUL. -/
def Shows (buffer : Text) : Prop := blankLine <:+: buffer.takeWhile (· != 0)

theorem findBlankLine_true : findBlankLine buffer = some true ↔ Shows buffer := by
  simp only [findBlankLine, Shows]
  split_ifs <;> simp_all

theorem findBlankLine_false : findBlankLine buffer = some false ↔ ¬ Shows buffer ∧ 0 ∈ buffer := by
  simp only [findBlankLine, Shows]
  split_ifs <;> simp_all

/-- The reads up to the one that completes the first blank line, or up to the one that delivers
nothing if there is none. -/
def Client.Complete (client : Client) (reads : ℕ) : Prop :=
  if blankLine <:+: client.chunks.flatten then
    IsLeast {n | blankLine <:+: (client.chunks.take n).flatten} reads
  else reads = client.chunks.length + 1

/-- Nothing is delivered at all, or the blank line shows in the buffer when it is complete, and the
buffer has a NUL and shows none before. -/
def Client.Legible (client : Client) : Prop :=
  client.chunks = [] ∨ ∃ reads, IsLeast {n | blankLine <:+: (client.chunks.take n).flatten} reads ∧
    Shows (client.seen reads) ∧
    ∀ n, 0 < n → n < reads → ¬ Shows (client.seen n) ∧ 0 ∈ client.seen n

/-- The loop leaves where it should, exactly when the reads are legible. -/
theorem header_iff (client : Client) :
    (∃ reads, Returns (handleConnection client) reads ∧ client.Complete reads) ↔
      client.Legible := by
  have hnil : ¬ blankLine <:+: [] := by decide
  by_cases hne : client.chunks = []
  · refine iff_of_true ⟨1, ?_, ?_⟩ (.inl hne)
    · have hreturn : handleConnection client = fun _ => some 1 := by
        funext fuel
        simp only [handleConnection, hne]
      exact hreturn ▸ returns_const 1
    · simp [Client.Complete, hne, hnil]
  · simp only [handleConnection_iff hne, findBlankLine_true, findBlankLine_false]
    constructor
    · rintro ⟨reads, ⟨hpos, hshows, hbefore⟩, hcomplete⟩
      unfold Client.Complete at hcomplete
      split_ifs at hcomplete with hstream
      · exact .inr ⟨reads, hcomplete, hshows, hbefore⟩
      · -- The read that delivers nothing leaves the buffer as it is.
        have hlength : 0 < client.chunks.length := List.length_pos_of_ne_nil hne
        have hsame : client.seen reads = client.seen client.chunks.length := by
          rw [hcomplete, Client.seen, layers_end (by simp), Client.seen]
        exact absurd (hsame ▸ hshows) (hbefore _ hlength (by omega)).1
    · rintro (hempty | ⟨reads, hleast, hshows, hbefore⟩)
      · exact absurd hempty hne
      · have hpos : 0 < reads := by
          refine Nat.pos_of_ne_zero fun hzero => hnil ?_
          simpa [hzero] using hleast.1
        have hprefix : (client.chunks.take reads).flatten <+: client.chunks.flatten :=
          (List.take_prefix _ _).flatten
        have hstream : blankLine <:+: client.chunks.flatten :=
          List.IsInfix.trans hleast.1 hprefix.isInfix
        refine ⟨reads, ⟨hpos, hshows, hbefore⟩, ?_⟩
        rwa [Client.Complete, if_pos hstream]

end

/-- A client that closes its side behind the first line. -/
def halfRequest : Client where
  chunks := [[71, 69, 84, 32, 47, 13, 10]]
  buffer := List.replicate bufferSize 0
  chunk_ne_nil := by decide
  chunk_le := by decide
  first_lt := by decide
  buffer_length := List.length_replicate

theorem seen_halfRequest {n : ℕ} (hpos : 0 < n) : halfRequest.seen n = halfRequest.seen 1 := by
  induction n, hpos using Nat.le_induction with
  | base => rfl
  | succ n hle ih =>
      have hend : halfRequest.chunks[n]? = none := List.getElem?_eq_none hle
      rw [Client.seen, layers_end hend, ← Client.seen, ih]

/-- The loop does not leave, as the buffer stays as it is. -/
theorem header_halfRequest : ∃ client : Client, client.chunks = [[71, 69, 84, 32, 47, 13, 10]] ∧
    ¬ ∃ reads, Returns (handleConnection client) reads := by
  refine ⟨halfRequest, rfl, ?_⟩
  rintro ⟨reads, hreturns⟩
  obtain ⟨hpos, hfound, -⟩ := (handleConnection_iff (by decide)).mp hreturns
  rw [findBlankLine_true, seen_halfRequest hpos, seen_one rfl] at hfound
  revert hfound
  unfold Shows
  decide

end EmbeddedCode.HttpServer
