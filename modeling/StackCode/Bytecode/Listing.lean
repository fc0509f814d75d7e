import StackCode.Bytecode.Scan

/-!
# The bytecode listing

One line per instruction, with its offset. An instruction that some jump targets
has a label line in front of it, and such jumps name the label. Targets at which no
instruction starts are gathered at the end, each once, in ascending order.
-/
namespace StackCode.Bytecode.Listing

/-- Adds a number to an ascending list without repetition. -/
def insert (n : Int) : List Int → List Int
  | [] => [n]
  | m :: ms => if n < m then n :: m :: ms else if n = m then m :: ms else m :: insert n ms

/-- The targets at which no instruction starts. -/
def unresolved (s : Scan) : List Int :=
  ((s.jumps.map Prod.snd).filter fun t => !s.isStart t).foldr insert []

/-- Does some jump of the program target offset `ip`? -/
def isTargeted (s : Scan) (ip : Nat) : Bool := s.jumps.any fun j => j.2 == (ip : Int)

def label (ip : Nat) : String := "L" ++ Text.offset4 ip

/-- The text of an instruction, with a label in place of a resolved target. -/
def instrText (s : Scan) (i : Instr) : String :=
  match i.target? with
  | some t =>
      if s.isStart t.toInt then i.opcode.name ++ " " ++ label t.toInt.toNat else i.text
  | none => i.text

/-- The line of an instruction and the label line it may need. -/
def lines (s : Scan) (l : Located) : List String :=
  (if isTargeted s l.ip then [label l.ip ++ ":\n"] else []) ++
    ["    " ++ Text.offset4 l.ip ++ "  " ++ instrText s l.instr ++ "\n"]

def unresolvedLine (t : Int) : String :=
  "; target " ++ toString t ++ ": not an instruction boundary\n"

/-- The listing of a decoded program. -/
def text (s : Scan) : String :=
  String.join (s.instrs.flatMap (lines s) ++ (unresolved s).map unresolvedLine)

/-- Lists a program. -/
def ofCode (code : Bytes) : Except Failure String :=
  let s := Scan.ofCode code
  s.complete?.map fun _ => text s

end StackCode.Bytecode.Listing
