import MoveCodec.Wasm.Instr

/-!
# Structured code

Code with its blocks as a tree. `Code.flatten` gives the body that stands in a module and
`Code.nest?` finds the tree of a body whose marks match.
-/
namespace MoveCodec.Wasm

inductive Step where
  | op (o : Op)
  | block (t : BlockType) (body : List Step)
  | loop (t : BlockType) (body : List Step)
  | branch (t : BlockType) (yes no : List Step)

abbrev Code := List Step

namespace Code

mutual

def flattenStep : Step → List Instr
  | .op o => [.op o]
  | .block t body => .block t :: flatten body ++ [.endMark]
  | .loop t body => .loop t :: flatten body ++ [.endMark]
  | .branch t yes [] => .ifStart t :: flatten yes ++ [.endMark]
  | .branch t yes no => .ifStart t :: flatten yes ++ .elseMark :: flatten no ++ [.endMark]

/-- The entries of a body, without the mark that closes it. -/
def flatten : List Step → List Instr
  | [] => []
  | s :: rest => flattenStep s ++ flatten rest

end

@[simp] theorem flatten_append (a b : Code) : flatten (a ++ b) = flatten a ++ flatten b := by
  induction a with
  | nil => simp [flatten]
  | cons s a ih => simp [flatten, ih]

/-- A block that is open: what it becomes when it is closed. -/
inductive Opened where
  | block (t : BlockType)
  | loop (t : BlockType)
  | yes (t : BlockType)
  | no (t : BlockType) (taken : Code)

def Opened.close (body : Code) : Opened → Step
  | .block t => .block t body
  | .loop t => .loop t body
  | .yes t => .branch t body []
  | .no t taken => .branch t taken body

/-- Reads a body inside the blocks of `outer`, each with the code before it in reverse; `done` is
the code of the innermost block in reverse. -/
def nestFrom (outer : List (Opened × Code)) (done : Code) : List Instr → Option Code
  | [] => none
  | .op o :: rest => nestFrom outer (.op o :: done) rest
  | .block t :: rest => nestFrom ((.block t, done) :: outer) [] rest
  | .loop t :: rest => nestFrom ((.loop t, done) :: outer) [] rest
  | .ifStart t :: rest => nestFrom ((.yes t, done) :: outer) [] rest
  | .elseMark :: rest =>
    match outer with
    | (.yes t, before) :: outer => nestFrom ((.no t done.reverse, before) :: outer) [] rest
    | _ => none
  | .endMark :: rest =>
    match outer with
    | (o, before) :: outer => nestFrom outer (o.close done.reverse :: before) rest
    | [] => if rest.isEmpty then some done.reverse else none

/-- The tree of a body that ends with the mark that closes it. -/
def nest? (body : List Instr) : Option Code := nestFrom [] [] body

end Code

end MoveCodec.Wasm
