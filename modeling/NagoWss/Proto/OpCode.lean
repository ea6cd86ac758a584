import Mathlib.Data.List.Basic

/-!
# Opcodes and close codes

The four opcode bits of a frame and the sixteen bit status of a close frame.
Every reserved opcode is refused rather than skipped, and a close code is kept
as the number the peer sent, with a separate test of whether it may be sent.
-/

namespace NagoWss

/-- A byte string: the contents of a `[u8]`, a `Vec<u8>` or a `Bytes`. -/
abbrev Bytes := List UInt8

/-- What a frame carries. -/
inductive OpCode
  /-- A continuation of the fragmented message already in progress. -/
  | continuation
  /-- UTF-8 text. -/
  | text
  /-- Opaque bytes. -/
  | binary
  /-- Start of the closing handshake. -/
  | close
  /-- Liveness probe. -/
  | ping
  /-- Reply to a probe. -/
  | pong
  deriving DecidableEq, Repr

namespace OpCode

/-- Decode the low four bits of the first header byte. -/
def fromBits (bits : UInt8) : Option OpCode :=
  match bits with
  | 0x0 => some continuation
  | 0x1 => some text
  | 0x2 => some binary
  | 0x8 => some close
  | 0x9 => some ping
  | 0xA => some pong
  | _ => none

/-- The four bits this opcode occupies on the wire. -/
def toBits : OpCode → UInt8
  | continuation => 0x0
  | text => 0x1
  | binary => 0x2
  | close => 0x8
  | ping => 0x9
  | pong => 0xA

/-- Whether this is a control frame. -/
def isControl : OpCode → Bool
  | close | ping | pong => true
  | continuation | text | binary => false

/-- The wire bits determine the opcode they were written for. -/
@[simp] theorem fromBits_toBits (op : OpCode) : fromBits op.toBits = some op := by
  cases op <;> rfl

end OpCode

/-- Why a connection closed, kept as the `u16` the peer sent. -/
structure CloseCode where
  /-- The status code itself. -/
  code : UInt16
  deriving DecidableEq, Repr

namespace CloseCode

/-- A protocol error was detected. -/
def PROTOCOL : CloseCode := ⟨1002⟩

/-- Payload that should have been UTF-8 was not. -/
def INVALID_PAYLOAD : CloseCode := ⟨1007⟩

/-- A message was too large to process. -/
def TOO_LARGE : CloseCode := ⟨1009⟩

/-- Unexpected condition on the server. -/
def INTERNAL_ERROR : CloseCode := ⟨1011⟩

/-- Whether this code may legally appear in a close frame on the wire. -/
def isSendable (c : CloseCode) : Bool :=
  if 1000 ≤ c.code ∧ c.code ≤ 1003 ∨ 1007 ≤ c.code ∧ c.code ≤ 1011 then true
  else if 1004 ≤ c.code ∧ c.code ≤ 1006 ∨ 1012 ≤ c.code ∧ c.code ≤ 1014 then false
  else if c.code = 1015 then false
  else if 3000 ≤ c.code ∧ c.code ≤ 4999 then true
  else false

/-- The replacement for an unsendable code may itself be sent. -/
theorem isSendable_INTERNAL_ERROR : INTERNAL_ERROR.isSendable = true := by decide

end CloseCode

end NagoWss
