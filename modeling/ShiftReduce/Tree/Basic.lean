import ShiftReduce.Text.Listing

/-! # Parse trees

- `Token`: the tokens that a parser reads; each has the name of a terminal.
- `Tree`: a leaf holds a token, a node the name of a nonterminal.
- `leaves`: the tokens from left to right; `Enumerates`: one after the other.
- `sexp`: the tree on one line, as `E(E(n), +, n)`.
- `drawing`: one symbol a line, below and to the right of its parent.
-/

namespace ShiftReduce

class Token (τ : Type) where
  /-- The name of the terminal that a token is an instance of. -/
  name : τ → String

instance : Token String := ⟨id⟩

inductive Tree (τ : Type) where
  | leaf (token : τ)
  | node (symbol : String) (children : List (Tree τ))
deriving Repr

namespace Tree

variable {τ : Type}

instance [Inhabited τ] : Inhabited (Tree τ) := ⟨.leaf default⟩

/-! ## Equality -/

mutual

def decideEq [DecidableEq τ] : (t u : Tree τ) → Decidable (t = u)
  | .leaf a, .leaf b =>
      if h : a = b then .isTrue (h ▸ rfl) else .isFalse fun e => h (Tree.leaf.inj e)
  | .node s ts, .node r us =>
      if h : s = r then
        match decideEqForest ts us with
        | .isTrue e => .isTrue (h ▸ e ▸ rfl)
        | .isFalse n => .isFalse fun e => n (Tree.node.inj e).2
      else .isFalse fun e => h (Tree.node.inj e).1
  | .leaf _, .node _ _ => .isFalse fun e => nomatch e
  | .node _ _, .leaf _ => .isFalse fun e => nomatch e

def decideEqForest [DecidableEq τ] : (ts us : List (Tree τ)) → Decidable (ts = us)
  | [], [] => .isTrue rfl
  | t :: ts, u :: us =>
      match decideEq t u with
      | .isTrue h =>
          match decideEqForest ts us with
          | .isTrue e => .isTrue (h ▸ e ▸ rfl)
          | .isFalse n => .isFalse fun e => n (List.cons.inj e).2
      | .isFalse n => .isFalse fun e => n (List.cons.inj e).1
  | [], _ :: _ => .isFalse fun e => nomatch e
  | _ :: _, [] => .isFalse fun e => nomatch e
end

instance [DecidableEq τ] : DecidableEq (Tree τ) := decideEq

/-! ## Parts -/

def isLeaf : Tree τ → Bool
  | .leaf _ => true
  | .node _ _ => false

def token? : Tree τ → Option τ
  | .leaf a => some a
  | .node _ _ => none

def children : Tree τ → List (Tree τ)
  | .leaf _ => []
  | .node _ ts => ts

mutual
def leaves : Tree τ → List τ
  | .leaf a => [a]
  | .node _ ts => forestLeaves ts

def forestLeaves : List (Tree τ) → List τ
  | [] => []
  | t :: ts => leaves t ++ forestLeaves ts
end

/-- The leaves one after the other, from a stack of trees that is listed from the top: a leaf
is taken away, a node gives way to its children. -/
inductive Enumerates : List (Tree τ) → List τ → Prop where
  | done : Enumerates [] []
  | leaf {a : τ} {stack : List (Tree τ)} {as : List τ} (rest : Enumerates stack as) :
      Enumerates (.leaf a :: stack) (a :: as)
  | node {s : String} {ts stack : List (Tree τ)} {as : List τ}
      (rest : Enumerates (ts ++ stack) as) :
      Enumerates (.node s ts :: stack) as

variable [Token τ]

/-- The grammar symbol that labels the root. -/
def symbol : Tree τ → String
  | .leaf a => Token.name a
  | .node s _ => s

/-! ## Texts -/

mutual
def sexp : Tree τ → String
  | .leaf a => Token.name a
  | .node s ts => s ++ "(" ++ ", ".intercalate (forestSexps ts) ++ ")"

def forestSexps : List (Tree τ) → List String
  | [] => []
  | t :: ts => sexp t :: forestSexps ts
end

mutual
/-- The lines of a tree: `first` stands before the root, `rest` before the
lines below it. -/
def drawingLines (first rest : String) : Tree τ → List String
  | .leaf a => [first ++ Token.name a]
  | .node s ts => (first ++ s) :: forestDrawingLines rest ts

/-- The last tree of a row ends the line that joins the row. -/
def forestDrawingLines (rest : String) : List (Tree τ) → List String
  | [] => []
  | t :: ts =>
      if ts.isEmpty then drawingLines (rest ++ "└── ") (rest ++ "    ") t
      else
        drawingLines (rest ++ "├── ") (rest ++ "│   ") t ++ forestDrawingLines rest ts
end

def drawing (t : Tree τ) : String := Text.lines (drawingLines "" "" t)

end Tree

end ShiftReduce
