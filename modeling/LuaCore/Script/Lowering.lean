import LuaCore.Script.Tree

/-! Lowering keeps the shape of a program, not its exact meaning: truth,
remainders and tables follow the script. -/

namespace LuaCore

/-- Lowering counts the temporaries made so far. -/
abbrev Lowering := StateM Nat

namespace Lowering

def temporary : Lowering String := do
  modify (· + 1)
  return s!"$local{← get}"

def temporaries : Nat → Lowering (List String)
  | 0 => return []
  | n + 1 => do
    let x ← temporary
    return x :: (← temporaries n)

end Lowering

structure LoweredStat where
  /-- Statements in the block that is open. -/
  stats : List Script.Stat
  /-- Statements at the start of a new block for the rest, if one is opened. -/
  reopened : Option (List Script.Stat)
  /-- The names bound in the block for the rest. -/
  declared : List String

namespace LoweredStat

def plain (declared : List String) (s : Script.Stat) : LoweredStat :=
  ⟨[s], none, declared⟩

def followedBy (s : LoweredStat) (rest : List Script.Stat) : List Script.Stat :=
  match s.reopened with
  | none => s.stats ++ rest
  | some first => s.stats ++ [.block (first ++ rest)]

end LoweredStat

def redeclares (declared names : List String) : Bool :=
  names.any (declared.contains ·)

def lowerLocal (declared names : List String) (values : List Script.Expr) :
    Lowering LoweredStat := do
  if redeclares declared names then
    let temps ← Lowering.temporaries values.length
    return ⟨temps.zipWith .const values, some [.lets names (temps.map .name)],
      names⟩
  else
    return ⟨.lets names values :: (values.drop names.length).map .expr, none,
      names ++ declared⟩

def lowerLocalFunction (declared : List String) (x : String)
    (function : Script.Expr) : LoweredStat :=
  if redeclares declared [x] then ⟨[], some [.lets [x] [function]], [x]⟩
  else ⟨[.lets [x] [function]], none, x :: declared⟩

def lowerLength (operand : Expr) (lowered : Script.Expr) : Script.Expr :=
  match operand with
  | .number _ => .member (.group lowered) (.name "length")
  | _ => .member lowered (.name "length")

def lowerUnary (op : UnaryOp) (operand : Expr) (lowered : Script.Expr) :
    Script.Expr :=
  match op with
  | .neg => .negate lowered
  | .not => .complement lowered
  | .length => lowerLength operand lowered

def lowerBinary (op : BinaryOp) (left right : Script.Expr) : Script.Expr :=
  match op with
  | .concat => .join left right
  | op => .binary op left right

def lowerAssign (targets values : List Script.Expr) : Script.Expr :=
  match targets, values with
  | [target], [value] => .assign target value
  | _, _ => .assignAll targets values

def methodKey (key : Expr) (lowered : Script.Expr) : Script.Expr :=
  match key with
  | .name x => .string x
  | _ => lowered

def lowerMember (access : Access) (object key : Script.Expr) : Script.Expr :=
  match access with
  | .bracket => .index object key
  | .dot | .colon => .member object key

mutual

def Expr.lower : Expr → Lowering Script.Expr
  | .name x => return .name x
  | .nil => return .undefined
  | .bool b => return .bool b
  | .number x => return .number x
  | .string text => return .string text
  | .unary op operand => return lowerUnary op operand (← operand.lower)
  | .binary op left right => do
    let left ← left.lower
    let right ← right.lower
    return lowerBinary op left right
  | .call callee args => do
    match callee with
    | .member object .colon key =>
      let object ← object.lower
      let key := methodKey key (← key.lower)
      return .call (.name "$method") (object :: key :: (← lowerExprs args))
    | callee =>
      let callee ← callee.lower
      return .call callee (← lowerExprs args)
  | .member object access key => do
    let object ← object.lower
    return lowerMember access object (← key.lower)
  | .assign targets values => do
    let targets ← lowerExprs targets
    return .group (lowerAssign targets (← lowerExprs values))
  | .table fields => return .object (← lowerFields 0 fields)
  | .function params body =>
    return .function params (← lowerStats params (pure []) body)

def lowerExprs : List Expr → Lowering (List Script.Expr)
  | [] => return []
  | e :: es => do
    let e ← e.lower
    return e :: (← lowerExprs es)

def lowerFields (position : Nat) : List Field → Lowering (List Script.Property)
  | [] => return []
  | .named key value :: fs => do
    let value ← value.lower
    return .named key value :: (← lowerFields position fs)
  | .keyed key value :: fs => do
    let key ← key.lower
    let value ← value.lower
    return .computed key value :: (← lowerFields position fs)
  | .item value :: fs => do
    let value ← value.lower
    return .named (toString position) value :: (← lowerFields (position + 1) fs)

def Stat.lower (declared : List String) : Stat → Lowering LoweredStat
  | .do body => return .plain declared (.block (← lowerStats [] (pure []) body))
  | .break => return .plain declared .break
  | .return values => return .plain declared (.return (← lowerExprs values))
  | .expr e => do
    match e with
    | .assign targets values =>
      let targets ← lowerExprs targets
      return .plain declared (.expr (lowerAssign targets (← lowerExprs values)))
    | e => return .plain declared (.expr (← e.lower))
  | .function target isLocal params body => do
    let function := .function params (← lowerStats params (pure []) body)
    match target, isLocal with
    | some (.name x), true => return lowerLocalFunction declared x function
    | some (.name x), false => return .plain declared (.var x function)
    | some target, _ =>
      return .plain declared (.expr (.assign (← target.lower) function))
    | none, _ => return .plain declared (.expr function)
  | .local names values => do lowerLocal declared names (← lowerExprs values)
  | .if test body clauses otherwise => do
    let test ← test.lower
    let body ← lowerStats [] (pure []) body
    let branches ← lowerClauses clauses
    match otherwise with
    | none => return .plain declared (.if test body branches none)
    | some block =>
      return .plain declared
        (.if test body branches (some (← lowerStats [] (pure []) block)))
  | .forRange x start stop step body => do
    let start ← start.lower
    let stop ← stop.lower
    let step ← step.lower
    return .plain declared
      (.forRange x start stop step (← lowerStats [] (pure []) body))
  | .forEach names source body => do
    let source ← source.lower
    return .plain declared
      (.forEach names source (← lowerStats names (pure []) body))
  | .while test body => do
    let test ← test.lower
    return .plain declared (.while test (← lowerStats [] (pure []) body))
  | .repeat body test =>
    return .plain declared
      (.forever (← lowerStats [] (do return [.breakIf (← test.lower)]) body))

/-- A block in which names are bound already; `last` ends it, in the innermost
block opened in it. -/
def lowerStats (declared : List String) (last : Lowering (List Script.Stat)) :
    List Stat → Lowering (List Script.Stat)
  | [] => last
  | s :: ss => do
    let s ← s.lower declared
    return s.followedBy (← lowerStats s.declared last ss)

def lowerClauses : List Clause → Lowering (List Script.Branch)
  | [] => return []
  | .mk test body :: cs => do
    let test ← test.lower
    let body ← lowerStats [] (pure []) body
    return .mk test body :: (← lowerClauses cs)

end

-- Their equations are made here, once for all that is proved with them.
attribute [grind =] Expr.lower lowerExprs lowerFields Stat.lower lowerStats
  lowerClauses

def preludeNames : List String := ["print", "pairs", "ipairs"]

def Chunk.lower (c : Chunk) : Script :=
  ⟨c.comments.map (·.text),
    (lowerStats preludeNames (pure []) c.body |>.run 0).1⟩

end LuaCore
