import Babble.Wire
import Babble.ObjectStream

/-!
# Requests on a connection

A client sends requests on a connection one after the other, each after it has read the
response to the one before. A request is a byte with the type of the command, followed by
the JSON text of the command and the new line with which the encoder ends a value. The
server reads the type byte from a buffered reader, and the command through a JSON decoder
on top of that reader. The decoder keeps what it has read too much, while the next type byte
is again read from the reader itself.

The new line after a request thus has to end up in the buffer of the decoder. It does not if
the read that completes the object ends with it. Then the server takes the new line for the
type of the next command and closes the connection (`newline_read_as_type`). The requests
are decoded and answered, with the connection left open, if and only if no read ends with an
object (`runConn_iff`).
-/

set_option linter.unusedSectionVars false

namespace Babble

open ObjectStream

variable {K : Type} [DecidableEq K]

/-! ## Commands -/

structure SyncRequest where
  fromID : UInt32
  known : List (UInt32 × ℤ)
  syncLimit : ℤ
deriving DecidableEq

structure EagerSyncRequest (K : Type) where
  fromID : UInt32
  events : List (WireEvent K)
deriving DecidableEq

structure FastForwardRequest where
  fromID : UInt32
deriving DecidableEq

structure JoinRequest (K : Type) where
  internalTransaction : InternalTransaction K
deriving DecidableEq

/-- A command, under the byte that announces it. -/
inductive Command (K : Type)
  | join (req : JoinRequest K)
  | sync (req : SyncRequest)
  | eagerSync (req : EagerSyncRequest K)
  | fastForward (req : FastForwardRequest)
deriving DecidableEq

/-- The byte that announces a command. -/
def Command.rpcType : Command K → UInt8
  | .join _ => 0
  | .sync _ => 1
  | .eagerSync _ => 2
  | .fastForward _ => 3

/-- The text of an error, empty if there is none, and the text of a response. -/
structure RPCResponse where
  error : String
  response : List UInt8
deriving DecidableEq

/-- What is outside of the transport : the JSON text of a command, the command of a given
type that a text holds, and the answers of the node. -/
structure Endpoint (K : Type) where
  marshal : Command K → List UInt8
  unmarshal : UInt8 → List UInt8 → Option (Command K)
  respond : Command K → RPCResponse

/-- The text of a command is an object that holds the command. -/
def Endpoint.Faithful (e : Endpoint K) (cmd : Command K) : Prop :=
  IsObject (e.marshal cmd) ∧ e.unmarshal cmd.rpcType (e.marshal cmd) = some cmd

instance (e : Endpoint K) (cmd : Command K) : Decidable (e.Faithful cmd) :=
  inferInstanceAs (Decidable (_ ∧ _))

/-- The bytes of a request. -/
def sendRPC (e : Endpoint K) (cmd : Command K) : List UInt8 :=
  cmd.rpcType :: (e.marshal cmd ++ [10])

/-! ## The server -/

/-- What the server does on a connection : it waits for a type byte, or for the rest of a
command, or it has closed the connection. -/
inductive Status
  | listening
  | decoding
  | closed
deriving DecidableEq

/-- A connection : the bytes that were sent and not read, the buffer of the decoder, and the
commands and the responses so far. -/
structure Conn (K : Type) where
  input : List UInt8 := []
  buf : List UInt8 := []
  status : Status := .listening
  commands : List (Command K) := []
  responses : List RPCResponse := []
deriving DecidableEq

/-- Decode and answer a single command. `sizes` are the sizes of the reads of the decoder.
The result is none if there is no type byte to read. -/
def handleCommand (e : Endpoint K) (sizes : List ℕ) (c : Conn K) : Option (Conn K) :=
  match c.input with
  | [] => none
  | rpcType :: input =>
    -- no other type is known
    if 3 < rpcType then some { c with input := input, status := .closed }
    else
      match decode sizes input c.buf with
      | .waiting buf => some { c with input := [], buf := buf, status := .decoding }
      | .error => some { c with status := .closed }
      | .object o buf input =>
        match e.unmarshal rpcType o with
        | none => some { c with input := input, buf := buf, status := .closed }
        | some cmd =>
          some
            { c with
              input := input
              buf := buf
              commands := c.commands ++ [cmd]
              responses := c.responses ++ [e.respond cmd] }

/-- Handle commands while there are bytes and the connection is open. `split` gives the
sizes of the reads for every command. -/
def handleConn (e : Endpoint K) (split : ℕ → List ℕ) : ℕ → Conn K → Conn K
  | 0, c => c
  | fuel + 1, c =>
    if c.status = .listening then
      match handleCommand e (split c.commands.length) c with
      | none => c
      | some c => handleConn e split fuel c
    else c

/-- A request and what the server does with it. Every command takes a byte at least. -/
def exchange (e : Endpoint K) (split : ℕ → List ℕ) (c : Conn K) (cmd : Command K) : Conn K :=
  let input := c.input ++ sendRPC e cmd
  handleConn e split (input.length + 1) { c with input := input }

/-- A sequence of requests on a new connection. -/
def runConn (e : Endpoint K) (split : ℕ → List ℕ) (cmds : List (Command K)) : Conn K :=
  cmds.foldl (exchange e split) {}

/-! ## Reads that end with an object -/

section Exchange

variable {e : Endpoint K} {split : ℕ → List ℕ} {c : Conn K} {cmd : Command K}

/-- The server waits for the next request, with nothing but white space in the buffer. -/
structure Conn.Ready (c : Conn K) : Prop where
  status : c.status = .listening
  input : c.input = []
  buf : ∀ b ∈ c.buf, isSpace b = true

theorem rpcType_le : ∀ cmd : Command K, ¬3 < cmd.rpcType
  | .join _ => (by decide : ¬(3 : UInt8) < 0)
  | .sync _ => (by decide : ¬(3 : UInt8) < 1)
  | .eagerSync _ => (by decide : ¬(3 : UInt8) < 2)
  | .fastForward _ => (by decide : ¬(3 : UInt8) < 3)

theorem handleConn_of_closed (hc : c.status ≠ .listening) (fuel : ℕ) :
    handleConn e split fuel c = c := by
  cases fuel with
  | zero => rfl
  | succ fuel => simp [handleConn, hc]

theorem handleConn_step {c' : Conn K}
    (h : handleCommand e (split c.commands.length) c = some c') (hc : c.status = .listening)
    (fuel : ℕ) : handleConn e split (fuel + 1) c = handleConn e split fuel c' := by
  simp [handleConn, hc, h]

theorem handleConn_of_empty (hc : c.input = []) (fuel : ℕ) : handleConn e split fuel c = c := by
  cases fuel with
  | zero => rfl
  | succ fuel =>
    unfold handleConn handleCommand
    rw [hc]
    split_ifs <;> rfl

/-- The new line is greater than every type. -/
theorem handleConn_newline (hi : c.input = [10]) (hc : c.status = .listening) (fuel : ℕ) :
    (handleConn e split (fuel + 1) c).status = .closed := by
  have hstep : handleCommand e (split c.commands.length) c =
      some { c with input := [], status := .closed } := by
    simp [handleCommand, hi, (by decide : (3 : UInt8) < 10)]
  rw [handleConn_step hstep hc, handleConn_of_closed (by simp)]

/-- One step of the server, on the bytes of a request. -/
theorem handleCommand_sendRPC (hr : c.Ready) (hf : e.Faithful cmd) (sizes : List ℕ) :
    handleCommand e sizes { c with input := c.input ++ sendRPC e cmd } =
      some
        { c with
          input := if (e.marshal cmd).length ∈ ends sizes then [10] else []
          buf := if (e.marshal cmd).length ∈ ends sizes then [] else [10]
          commands := c.commands ++ [cmd]
          responses := c.responses ++ [e.respond cmd] } := by
  unfold handleCommand sendRPC
  rw [hr.input]
  simp only [List.nil_append, rpcType_le, if_false, decode_eq hf.1 hr.buf]
  split_ifs <;> simp [hf.2]

/-- A request after which the server waits for the next one. -/
theorem exchange_of_joined (hr : c.Ready) (hf : e.Faithful cmd)
    (hs : (e.marshal cmd).length ∉ ends (split c.commands.length)) :
    exchange e split c cmd =
      { c with
        buf := [10]
        commands := c.commands ++ [cmd]
        responses := c.responses ++ [e.respond cmd] } := by
  unfold exchange
  simp only
  rw [handleConn_step (handleCommand_sendRPC hr hf _) hr.status, if_neg hs, if_neg hs,
    handleConn_of_empty rfl, hr.input]

/-- A request after which the server takes the new line for a type. -/
theorem exchange_of_split (hr : c.Ready) (hf : e.Faithful cmd)
    (hs : (e.marshal cmd).length ∈ ends (split c.commands.length)) :
    (exchange e split c cmd).status = .closed := by
  unfold exchange
  simp only
  rw [handleConn_step (handleCommand_sendRPC hr hf _) hr.status, if_pos hs, if_pos hs]
  obtain ⟨fuel, hfuel⟩ : ∃ fuel, (c.input ++ sendRPC e cmd).length = fuel + 1 :=
    ⟨_, by rw [sendRPC, List.length_append, List.length_cons]; rfl⟩
  rw [hfuel]
  refine handleConn_newline rfl ?_ fuel
  exact hr.status

theorem exchange_of_closed (hc : c.status = .closed) :
    (exchange e split c cmd).status = .closed := by
  unfold exchange
  rw [handleConn_of_closed (by simp [hc])]
  exact hc

theorem foldl_exchange_of_closed (hc : c.status = .closed) (cmds : List (Command K)) :
    (cmds.foldl (exchange e split) c).status = .closed := by
  induction cmds generalizing c with
  | nil => exact hc
  | cons cmd cmds ih => exact ih (exchange_of_closed hc)

/-- No read ends with an object. -/
def Joined (e : Endpoint K) (split : ℕ → List ℕ) : ℕ → List (Command K) → Prop
  | _, [] => True
  | n, cmd :: cmds => (e.marshal cmd).length ∉ ends (split n) ∧ Joined e split (n + 1) cmds

/-- From a connection on which the server waits for the next request. -/
theorem foldl_exchange_iff (hr : c.Ready) (cmds : List (Command K))
    (hf : ∀ cmd ∈ cmds, e.Faithful cmd) :
    ((cmds.foldl (exchange e split) c).status = .listening ∧
      (cmds.foldl (exchange e split) c).commands = c.commands ++ cmds ∧
      (cmds.foldl (exchange e split) c).responses = c.responses ++ cmds.map e.respond) ↔
    Joined e split c.commands.length cmds := by
  induction cmds generalizing c with
  | nil => simp [Joined, hr.status]
  | cons cmd cmds ih =>
    have hcmd := hf cmd List.mem_cons_self
    by_cases hs : (e.marshal cmd).length ∈ ends (split c.commands.length)
    · have hclosed : (cmds.foldl (exchange e split) (exchange e split c cmd)).status = .closed :=
        foldl_exchange_of_closed (exchange_of_split hr hcmd hs) cmds
      simp only [List.foldl_cons, hclosed, Joined, hs]
      simp
    · rw [List.foldl_cons, exchange_of_joined hr hcmd hs, Joined, and_iff_right hs]
      have hr' : Conn.Ready { c with
          buf := [10]
          commands := c.commands ++ [cmd]
          responses := c.responses ++ [e.respond cmd] } :=
        ⟨hr.status, hr.input, fun b hb => by rw [List.mem_singleton.1 hb]; rfl⟩
      have := ih hr' fun cmd' h => hf cmd' (List.mem_cons_of_mem cmd h)
      simpa using this

end Exchange

/-- The requests of a connection are decoded as they were sent and each answered once, with
the connection left open, if and only if no read of the decoder ends with an object. -/
theorem runConn_iff (e : Endpoint K) (split : ℕ → List ℕ) (cmds : List (Command K))
    (hf : ∀ cmd ∈ cmds, e.Faithful cmd) :
    ((runConn e split cmds).status = .listening ∧ (runConn e split cmds).commands = cmds ∧
      (runConn e split cmds).responses = cmds.map e.respond) ↔
    ∀ (i : ℕ) (cmd : Command K), cmds[i]? = some cmd →
      (e.marshal cmd).length ∉ ends (split i) := by
  have hready : Conn.Ready ({} : Conn K) := ⟨rfl, rfl, by simp⟩
  have hjoined : ∀ n (l : List (Command K)), Joined e split n l ↔ ∀ (i : ℕ) (cmd : Command K),
      l[i]? = some cmd → (e.marshal cmd).length ∉ ends (split (n + i)) := by
    intro n l
    induction l generalizing n with
    | nil => simp [Joined]
    | cons cmd l ih =>
      rw [Joined, ih]
      constructor
      · rintro ⟨h0, h⟩ i cmd' hi
        cases i with
        | zero =>
          obtain rfl := Option.some.inj hi
          exact h0
        | succ i =>
          have := h i cmd' hi
          rwa [Nat.add_right_comm, Nat.add_assoc] at this
      · intro h
        refine ⟨h 0 cmd rfl, fun i cmd' hi => ?_⟩
        have := h (i + 1) cmd' hi
        rwa [Nat.add_right_comm, Nat.add_assoc]
  have := @foldl_exchange_iff K _ e split {} hready cmds hf
  rw [hjoined] at this
  simpa [runConn] using this

namespace Sample

/-- Text as bytes. -/
def bytesOf (text : String) : List UInt8 :=
  text.toList.map fun c => UInt8.ofNat c.toNat

/-- The JSON text of fast-forward requests with a small identifier. -/
def endpoint : Endpoint Bytes where
  marshal
    | .fastForward req => bytesOf "\x7b\"FromID\":" ++ [UInt8.ofNat (48 + req.fromID.toNat), 125]
    | _ => []
  unmarshal _ o :=
    match o.drop 10 with
    | [d, 125] => some (.fastForward ⟨UInt32.ofNat (d.toNat - 48)⟩)
    | _ => none
  respond cmd := { error := "", response := [cmd.rpcType] }

/-- Two fast-forward requests. -/
def twoRequests : List (Command Bytes) :=
  [.fastForward ⟨1⟩, .fastForward ⟨2⟩]

/-- Both requests are answered if the first is read in two chunks, of which the second has
the new line. -/
theorem requests_answered :
    (runConn endpoint (fun _ => [4]) twoRequests).status = .listening ∧
      (runConn endpoint (fun _ => [4]) twoRequests).commands = twoRequests ∧
      (runConn endpoint (fun _ => [4]) twoRequests).responses =
        twoRequests.map endpoint.respond := by
  refine (runConn_iff endpoint (fun _ => [4]) twoRequests (by decide +kernel)).2 fun i cmd hi => ?_
  have hlen : ∀ cmd ∈ twoRequests, (endpoint.marshal cmd).length ∉ ends [4] := by decide +kernel
  exact hlen cmd (List.mem_iff_getElem?.2 ⟨i, hi⟩)

/-- If the first read of the decoder has the object and the second would have the new line,
then the server closes the connection after the first request. -/
theorem newline_read_as_type :
    (endpoint.marshal (.fastForward ⟨1⟩)).length = 12 ∧
    (runConn endpoint (fun _ => [11]) twoRequests).status = .closed ∧
      (runConn endpoint (fun _ => [11]) twoRequests).commands = [.fastForward ⟨1⟩] := by
  decide +kernel

end Sample

end Babble
