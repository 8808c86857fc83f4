import PatternMachine.Code.Generator

/-!
# Sessions

A generator outlives its errors.  A session is a sequence of requests to one generator, each of which is handled in the
state that the ones before it have left, whether they failed or not.
-/

namespace PatternMachine

/-- A request to a generator.  Errors of type `ε` are for instructions that whoever makes the request expects to be of
another operation. -/
inductive Request (ε : Type) where
  /-- Adds an instruction. -/
  | push (i : Instr)
  /-- Sets destinations of the instruction at an address. -/
  | redirect (address : Nat) (expected : Option Opcode) (fault : ε) (new : Targets)
  | prepend (ps : List Pattern)
  | generate (p : Pattern)
  | expand (p : Pattern)
  | setLimit (limit : Int)

/-- Why a request has failed. -/
inductive Refusal (ε : Type) where
  /-- The error that came with the request. -/
  | requested (fault : ε)
  | code (e : CodeError)
deriving DecidableEq

namespace Generator

variable {ε : Type}

/-- Handles a request. -/
def handle (g : Generator) : Request ε → Generator × Option (Refusal ε)
  | .push i =>
    match g.asm.push i with
    | .ok asm => ({ g with asm }, none)
    | .error e => (g, some (.code e))
  | .redirect address expected fault new =>
    match g.asm.redirect address expected fault new with
    | .ok asm => ({ g with asm }, none)
    | .error e => (g, some (.requested e))
  | .prepend ps => (g.prepend ps, none)
  | .generate p =>
    let (g, fault) := g.generate p
    (g, fault.map .code)
  | .expand p =>
    let (g, fault) := g.expand p
    (g, fault.map .code)
  | .setLimit limit => ({ g with asm := { g.asm with limit } }, none)

/-- The generator after some requests. -/
def handleAll (g : Generator) (requests : List (Request ε)) : Generator :=
  requests.foldl (fun g r => (g.handle r).1) g

theorem handleAll_append (g : Generator) (requests more : List (Request ε)) :
    g.handleAll (requests ++ more) = (g.handleAll requests).handleAll more :=
  List.foldl_append

/-- The generator after the requests of a session that begins with an empty program and the given limit. -/
def session (limit : Int) (requests : List (Request ε)) : Generator :=
  handleAll { asm := { limit } } requests

/-- Among the requests there is one to generate a pattern for which there was no room. -/
def Overflows (g : Generator) (requests : List (Request ε)) : Prop :=
  ∃ before p after, requests = before ++ .generate p :: after ∧
    ((g.handleAll before).handle (.generate p : Request ε)).2 = some (.code .counterOverflow)

end Generator

/-- The instruction with all its destinations set to `0`. -/
def Instr.erased : Instr → Instr
  | .jump _ => .jump 0
  | .split _ _ => .split 0 0
  | i => i

/-- The instructions of a program but for their destinations. -/
def Program.erased (program : Program) : List Instr :=
  program.toList.map Instr.erased

end PatternMachine
