import LuaCore.Tree

/-! The nodes of a syntax tree in the order in which they are built: the parts
of a node, then the node. -/

namespace LuaCore

inductive Node
  | chunk (c : Chunk)
  | block (b : Block)
  | stat (s : Stat)
  | clause (c : Clause)
  | expr (e : Expr)
  | name (x : String)
  | field (f : Field)
  | comment (c : Comment)

inductive NodeKind
  | chunk | block
  | doStatement | breakStatement | returnStatement | expressionStatement |
      functionDeclaration
  | localStatement | ifStatement | rangeLoopStatement | eachLoopStatement |
      whileStatement
  | repeatStatement
  | identifier | literal | unaryExpression | binaryExpression | callExpression |
      memberExpression
  | assignExpression | tableExpression
  | keyedField | itemField | comment
deriving DecidableEq, Repr

def NodeKind.text : NodeKind → String
  | chunk => "Chunk"
  | block => "Block"
  | doStatement => "DoStatement"
  | breakStatement => "BreakStatement"
  | returnStatement => "ReturnStatement"
  | expressionStatement => "ExpressionStatement"
  | functionDeclaration => "FunctionDeclaration"
  | localStatement => "LocalStatement"
  | ifStatement => "IfStatement"
  | rangeLoopStatement => "FornumStatement"
  | eachLoopStatement => "ForlistStatement"
  | whileStatement => "WhileStatement"
  | repeatStatement => "RepeatStatement"
  | identifier => "Identifier"
  | literal => "Literal"
  | unaryExpression => "UnaryExpression"
  | binaryExpression => "BinaryExpression"
  | callExpression => "CallExpression"
  | memberExpression => "MemberExpression"
  | assignExpression => "AssignExpression"
  | tableExpression => "TableExpression"
  | keyedField => "Recfield"
  | itemField => "Listfield"
  | comment => "Comment"

def Stat.kind : Stat → NodeKind
  | .do _ => .doStatement
  | .break => .breakStatement
  | .return _ => .returnStatement
  | .expr _ => .expressionStatement
  | .function .. => .functionDeclaration
  | .local .. => .localStatement
  | .if .. => .ifStatement
  | .forRange .. => .rangeLoopStatement
  | .forEach .. => .eachLoopStatement
  | .while .. => .whileStatement
  | .repeat .. => .repeatStatement

def Expr.kind : Expr → NodeKind
  | .name _ => .identifier
  | .nil | .bool _ | .number _ | .string _ => .literal
  | .unary .. => .unaryExpression
  | .binary .. => .binaryExpression
  | .call .. => .callExpression
  | .member .. => .memberExpression
  | .assign .. => .assignExpression
  | .table _ => .tableExpression
  | .function .. => .functionDeclaration

def Field.kind : Field → NodeKind
  | .named .. | .keyed .. => .keyedField
  | .item _ => .itemField

def Node.kind : Node → NodeKind
  | .chunk _ => .chunk
  | .block _ => .block
  | .stat s => s.kind
  | .clause _ => .ifStatement
  | .expr e => e.kind
  | .name _ => .identifier
  | .field f => f.kind
  | .comment _ => .comment

def nameNodes (names : List String) : List Node := names.map .name

mutual

def Expr.nodes : Expr → List Node
  | .name x => [.name x]
  | .nil => [.expr .nil]
  | .bool b => [.expr (.bool b)]
  | .number x => [.expr (.number x)]
  | .string text => [.expr (.string text)]
  | .unary op operand => operand.nodes ++ [.expr (.unary op operand)]
  | .binary op left right =>
    left.nodes ++ right.nodes ++ [.expr (.binary op left right)]
  | .call callee args =>
    callee.nodes ++ exprNodes args ++ [.expr (.call callee args)]
  | .member object access key =>
    object.nodes ++ key.nodes ++ [.expr (.member object access key)]
  | .assign targets values =>
    exprNodes targets ++ exprNodes values ++ [.expr (.assign targets values)]
  | .table fields => fieldNodes fields ++ [.expr (.table fields)]
  | .function params body =>
    nameNodes params ++ statNodes body ++
      [.block body, .expr (.function params body)]

def exprNodes : List Expr → List Node
  | [] => []
  | e :: es => e.nodes ++ exprNodes es

def Field.nodes : Field → List Node
  | .named key value => .name key :: value.nodes ++ [.field (.named key value)]
  | .keyed key value => key.nodes ++ value.nodes ++ [.field (.keyed key value)]
  | .item value => value.nodes ++ [.field (.item value)]

def fieldNodes : List Field → List Node
  | [] => []
  | f :: fs => f.nodes ++ fieldNodes fs

def Stat.nodes : Stat → List Node
  | .do body => statNodes body ++ [.block body, .stat (.do body)]
  | .break => [.stat .break]
  | .return values => exprNodes values ++ [.stat (.return values)]
  | .expr e => e.nodes ++ [.stat (.expr e)]
  | .function none _ params body =>
    nameNodes params ++ statNodes body ++ [.block body]
  | .function (some target) isLocal params body =>
    target.nodes ++ nameNodes params ++ statNodes body ++
      [.block body, .stat (.function (some target) isLocal params body)]
  | .local names values =>
    nameNodes names ++ exprNodes values ++ [.stat (.local names values)]
  | .if test body clauses otherwise =>
    test.nodes ++ statNodes body ++ .block body :: clauseNodes clauses ++
      (match otherwise with
        | none => []
        | some block => statNodes block ++ [.block block]) ++
      [.stat (.if test body clauses otherwise)]
  | .forRange x start stop step body =>
    .name x :: start.nodes ++ stop.nodes ++ step.nodes ++ statNodes body ++
      [.block body, .stat (.forRange x start stop step body)]
  | .forEach names source body =>
    nameNodes names ++ source.nodes ++ statNodes body ++
      [.block body, .stat (.forEach names source body)]
  | .while test body =>
    test.nodes ++ statNodes body ++ [.block body, .stat (.while test body)]
  | .repeat body test =>
    statNodes body ++ .block body :: test.nodes ++ [.stat (.repeat body test)]

def statNodes : List Stat → List Node
  | [] => []
  | s :: ss => s.nodes ++ statNodes ss

def Clause.nodes : Clause → List Node
  | .mk test body =>
    test.nodes ++ statNodes body ++ [.block body, .clause (.mk test body)]

def clauseNodes : List Clause → List Node
  | [] => []
  | c :: cs => c.nodes ++ clauseNodes cs

end

-- Their equations are made here, once for all that is proved with them.
attribute [grind =] Expr.nodes exprNodes Field.nodes fieldNodes Stat.nodes
  statNodes Clause.nodes clauseNodes

/-- The nodes of a program that is built after its comments. -/
def Chunk.nodes (c : Chunk) : List Node :=
  c.comments.map .comment ++ statNodes c.body ++ [.block c.body, .chunk c]

/-- Whether a node holds a number that differs from itself. -/
def Node.isNaN : Node → Bool
  | .expr (.number x) => x.isNaN
  | _ => false

/-- A program equals itself unless a NaN stands in it. -/
def Chunk.equalsItself (c : Chunk) : Bool := !c.nodes.any Node.isNaN

end LuaCore
