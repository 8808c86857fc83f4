import PatternMachine.Instr.Basic

/-!
# Program listings

A program written out, one instruction for each line, with its address in front.  Characters stand as they are, so
a line feed among them breaks the line.
-/

namespace PatternMachine

/-- The decimal digits of `n`, with zeros in front up to the given width. -/
def paddedDigits (width n : Nat) : List Char :=
  let digits := Nat.toDigits 10 n
  List.replicate (width - digits.length) '0' ++ digits

/-- An address as it is written: at least four columns wide, the sign included. -/
def addressText : Int → String
  | .ofNat n => String.ofList (paddedDigits 4 n)
  | .negSucc n => String.ofList ('-' :: paddedDigits 3 (n + 1))

/-- Why a program cannot be written out. -/
inductive ListingError where
  /-- An instruction is no operation of the machine. -/
  | illegal
deriving DecidableEq

def ListingError.message : ListingError → String
  | illegal => "Instruction has no listing form"

def Instr.text : Instr → Except ListingError String
  | char text => .ok ("char " ++ text)
  | any => .ok "dot"
  | lineStart => .ok "caret"
  | lineEnd => .ok "dollar"
  | accept => .ok "match"
  | jump target => .ok ("jump " ++ addressText target)
  | split first second => .ok ("split " ++ addressText first ++ ", " ++ addressText second)
  | illegal => .error .illegal

/-- The line of a listing for the instruction at an address. -/
def listingLine (i : Instr) (address : Nat) : Except ListingError String :=
  i.text.map fun text => addressText address ++ ": " ++ text

def listing (program : Program) : Except ListingError String :=
  (program.toList.zipIdx.mapM fun (i, address) => listingLine i address).map fun lines => "\n".intercalate lines

end PatternMachine
