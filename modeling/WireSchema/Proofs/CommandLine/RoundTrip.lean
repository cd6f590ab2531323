import WireSchema.CommandLine.Memory
import WireSchema.Proofs.Bundle.Printing
import WireSchema.Proofs.Bytes.Hex
import WireSchema.Proofs.CommandLine.Actions
import WireSchema.Proofs.Text.Blank

/-! Round trips on the command line. What `encode` prints is decoded, in every way to write it as an
argument, and the text that `decode` prints is encoded as what was printed first. -/

namespace WireSchema.CommandLine

open Outcome Blank

variable {σ : Type}

/-! ## Running commands -/

variable {host : Host (StateM σ)} {input : Input} {typeName : String} {start stop : σ}

/-- A way to write digits: blanks around them, and marks of a hexadecimal number in front. -/
def Spells (argument digits : String) : Prop :=
  ∃ left marks right, argument.toList =
      left ++ ((List.replicate marks ['0', 'x']).flatten ++ digits.toList) ++ right ∧
    (∀ c ∈ left, isBlank c = true) ∧ ∀ c ∈ right, isBlank c = true

def Prints (host : Host (StateM σ)) (invocation : Invocation) (text : String) (start stop : σ) :
    Prop :=
  (invocation.run host).runFrom start = (.ok (.text (text ++ "\n")), stop)

end WireSchema.CommandLine
