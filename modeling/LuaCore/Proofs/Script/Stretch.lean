import LuaCore.Proofs.Script.Region

namespace LuaCore

/-- The names that a statement binds by `let` in the script. -/
def Stat.locals : Stat → List String
  | .local names _ => names
  | .function (some (.name x)) true _ _ => [x]
  | _ => []

/-- The statements from the start of a region to the end of the block that it
lies in. Those after one that binds a name again lie in regions inside it. -/
structure Stretch where
  params : List String
  head : List String
  body : Block

mutual

def Expr.stretches : Expr → List Stretch
  | .name _ | .nil | .bool _ | .number _ | .string _ => []
  | .unary _ operand => operand.stretches
  | .binary _ left right => left.stretches ++ right.stretches
  | .call callee args => callee.stretches ++ exprStretches args
  | .member object _ key => object.stretches ++ key.stretches
  | .assign targets values => exprStretches targets ++ exprStretches values
  | .table fields => fieldStretches fields
  | .function params body =>
    blockStretches params [] body ++ [⟨params, [], body⟩]

def exprStretches : List Expr → List Stretch
  | [] => []
  | e :: es => e.stretches ++ exprStretches es

def Field.stretches : Field → List Stretch
  | .named _ value => value.stretches
  | .keyed key value => key.stretches ++ value.stretches
  | .item value => value.stretches

def fieldStretches : List Field → List Stretch
  | [] => []
  | f :: fs => f.stretches ++ fieldStretches fs

def Stat.stretches : Stat → List Stretch
  | .do body => blockStretches [] [] body ++ [⟨[], [], body⟩]
  | .break => []
  | .return values => exprStretches values
  | .expr e => e.stretches
  | .function none _ params body =>
    blockStretches params [] body ++ [⟨params, [], body⟩]
  | .function (some target) _ params body =>
    target.stretches ++ (blockStretches params [] body ++ [⟨params, [], body⟩])
  | .local _ values => exprStretches values
  | .if test body clauses none =>
    test.stretches ++ blockStretches [] [] body ++ [⟨[], [], body⟩] ++
      clauseStretches clauses
  | .if test body clauses (some otherwise) =>
    test.stretches ++ blockStretches [] [] body ++ [⟨[], [], body⟩] ++
      clauseStretches clauses ++ blockStretches [] [] otherwise ++
      [⟨[], [], otherwise⟩]
  | .forRange x start stop step body =>
    start.stretches ++ stop.stretches ++ step.stretches ++
      blockStretches [] [] body ++ [⟨[], [], body⟩, ⟨[], [x], [.do body]⟩]
  | .forEach names source body =>
    source.stretches ++ blockStretches names [] body ++
      [⟨[], names, body⟩, ⟨[], [], [.do body]⟩]
  | .while test body =>
    test.stretches ++ blockStretches [] [] body ++ [⟨[], [], body⟩]
  | .repeat body test =>
    blockStretches [] test.stretches body ++ [⟨[], [], body⟩]

/-- The stretches inside a block in which names are bound already; `tail` are
those of what ends it. -/
def blockStretches (declared : List String) (tail : List Stretch) :
    List Stat → List Stretch
  | [] => tail
  | s :: ss =>
    if redeclares declared s.locals then
      s.stretches ++ blockStretches s.locals tail ss ++ [⟨[], s.locals, ss⟩]
    else s.stretches ++ blockStretches (s.locals ++ declared) tail ss

def Clause.stretches : Clause → List Stretch
  | .mk test body =>
    test.stretches ++ blockStretches [] [] body ++ [⟨[], [], body⟩]

def clauseStretches : List Clause → List Stretch
  | [] => []
  | c :: cs => c.stretches ++ clauseStretches cs

end

/-- The statements before one that binds a name again, which stand in the block
that is open. -/
def placed (declared : List String) : List Stat → List Stat
  | [] => []
  | s :: ss =>
    if redeclares declared s.locals then []
    else s :: placed (s.locals ++ declared) ss

def Stretch.placed (t : Stretch) : List Stat :=
  LuaCore.placed (t.params ++ t.head) t.body

def Chunk.stretches (c : Chunk) : List Stretch :=
  blockStretches preludeNames [] c.body ++ [⟨[], preludeNames, c.body⟩]

end LuaCore
