import RpalMachine.Tree.Basic

namespace RpalMachine.Tree

def outlineLine (depth : Nat) (tag : Tag) : String :=
  String.ofList (List.replicate depth '.') ++ tag.label

mutual

def outlineAt (depth : Nat) : Tree → List String
  | node tag children => outlineLine depth tag :: forestOutlineAt (depth + 1) children

def forestOutlineAt (depth : Nat) : List Tree → List String
  | []      => []
  | t :: ts => outlineAt depth t ++ forestOutlineAt depth ts

end

def outline (t : Tree) : List String :=
  t.outlineAt 0

-- The outline as text, every line ended.
def outlineText (t : Tree) : String :=
  String.join (t.outline.map (· ++ "\n"))

end RpalMachine.Tree
