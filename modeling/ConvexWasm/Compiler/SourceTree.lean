import ConvexWasm.Compiler.Summary

/-!
# Syntax trees of expressions

The compiler reads a module as a tree of nodes.  Parentheses and type
annotations are nodes of their own, which most readers step over.
-/

namespace ConvexWasm.Compiler

inductive JsLiteral
  | text (value : String)
  | number (value : ℚ)
  | other
  deriving DecidableEq

/-- A node of the tree.  A wrapper stands for parentheses, `as`, `satisfies`,
`!` and the other annotations that vanish at run time; the last constructor
stands for all nodes that no function here looks into. -/
inductive JsNode
  | identifier (range : SourceRange) (name : String)
  | literal (range : SourceRange) (value : JsLiteral)
  | member (range : SourceRange) (object property : JsNode) (computed optional : Bool)
  | call (range : SourceRange) (callee : JsNode) (arguments : List JsNode) (optional : Bool)
  | construct (range : SourceRange) (callee : JsNode) (arguments : List JsNode)
  | chain (range : SourceRange) (expression : JsNode)
  | wrapper (range : SourceRange) (expression : JsNode)
  | arrow (range : SourceRange) (parameters : List JsNode) (body : JsNode) (isAsync : Bool)
  | function (range : SourceRange) (parameters : List JsNode) (body : JsNode) (isAsync : Bool)
  | spread (range : SourceRange) (argument : JsNode)
  | other (range : SourceRange) (type : String) (children : List JsNode)

namespace JsNode

def range : JsNode → SourceRange
  | identifier range _ | literal range _ | member range _ _ _ _ | call range _ _ _
  | construct range _ _ | chain range _ | wrapper range _ | arrow range _ _ _
  | function range _ _ _ | spread range _ | other range _ _ => range

def unwrapRuntimeExpression : JsNode → JsNode
  | wrapper _ expression => expression.unwrapRuntimeExpression
  | node => node

def identifierName : JsNode → Option String
  | identifier _ name => some name
  | _ => none

/-- The text of a string literal. -/
def valueString : JsNode → Option String
  | wrapper _ expression => expression.valueString
  | literal _ (.text value) => some value
  | _ => none

def expressionHasOptionalChain : JsNode → Bool
  | wrapper _ expression => expression.expressionHasOptionalChain
  | chain _ _ => true
  | call _ callee _ optional => optional || callee.expressionHasOptionalChain
  | member _ object _ _ optional => optional || object.expressionHasOptionalChain
  | _ => false

def callHasOptionalCallee : JsNode → Bool
  | wrapper _ expression => expression.callHasOptionalCallee
  | call _ callee _ optional => optional || callee.expressionHasOptionalChain
  | _ => false

/-- The names of a path of members.  At each of them at most one optional
chain is stepped over. -/
def memberSegmentsFrom : Bool → JsNode → Option (List String)
  | inChain, wrapper _ expression => memberSegmentsFrom inChain expression
  | false, chain _ expression => memberSegmentsFrom true expression
  | _, identifier _ name => some [name]
  | _, member _ object property computed _ =>
    if computed then none
    else do
      let before ← memberSegmentsFrom false object
      let name ← property.identifierName
      return before ++ [name]
  | _, _ => none

/-- `member_path`, with the names still apart. -/
def memberSegments (node : JsNode) : Option (List String) :=
  memberSegmentsFrom false node

def isSpread : JsNode → Bool
  | spread _ _ => true
  | _ => false

def isAsync : JsNode → Bool
  | arrow _ _ _ isAsync | function _ _ _ isAsync => isAsync
  | _ => false

theorem unwrapRuntimeExpression_ne (node expression : JsNode) (range : SourceRange) :
    node.unwrapRuntimeExpression ≠ wrapper range expression := by
  induction node using unwrapRuntimeExpression.induct with
  | case1 _ inner ih => exact ih
  | case2 node hnode =>
    rw [unwrapRuntimeExpression.eq_2 node hnode]
    exact hnode range expression

end JsNode

end ConvexWasm.Compiler
