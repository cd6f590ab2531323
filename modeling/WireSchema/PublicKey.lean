import WireSchema.Bytes.Base58

/-! Public keys: 32 bytes, spelled in base58. -/

namespace WireSchema

structure PublicKey where
  bytes : List UInt8
  size : bytes.length = 32
  deriving DecidableEq, Repr

inductive KeyError where
  | invalidBase58 (cause : Base58.Fault)
  | wrongLength (length : Nat)
  deriving DecidableEq, Repr

def KeyError.message : KeyError → String
  | .invalidBase58 cause => "invalid base58: " ++ cause.message
  | .wrongLength length => s!"public key must be 32 bytes, got {length}"

namespace PublicKey

def zero : PublicKey :=
  ⟨List.replicate 32 0, rfl⟩

def ofBytes (bytes : List UInt8) : Except KeyError PublicKey :=
  if size : bytes.length = 32 then .ok ⟨bytes, size⟩ else .error (.wrongLength bytes.length)

def text (key : PublicKey) : String :=
  Base58.encode key.bytes

def label (key : PublicKey) : String :=
  "PublicKey(" ++ key.text ++ ")"

def ofText (text : String) : Except KeyError PublicKey :=
  match Base58.decode text with
  | .ok bytes => ofBytes bytes
  | .error cause => .error (.invalidBase58 cause)

end PublicKey

end WireSchema
