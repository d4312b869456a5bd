import LuaCore.Script.Text

/-! A writer that goes through a program once and writes line after line,
without a script as a tree in between. -/

namespace LuaCore

open Script (commaSeparated)

/-- What is bound in the innermost block of a scope, and how many blocks were
opened for names bound again. -/
structure Writer.Scope where
  declared : List String
  reopened : Nat

/-- What is written, at which indent, and the scopes that are open, the
innermost first. -/
structure Writer.Page where
  out : String
  indent : Nat
  scopes : List Writer.Scope

structure Writer extends Writer.Page where
  temps : Nat

abbrev Writing := StateT Writer Option

namespace Writing

def write (text : String) : Writing Unit :=
  modify fun w => { w with out := w.out ++ text }

def line (text : String) : Writing Unit :=
  do write (Script.line (← get).indent text)

def indent : Writing Unit := modify fun w => { w with indent := w.indent + 1 }

/-- Nothing can be taken from an indent of zero. -/
def dedent : Writing Unit := do
  match (← get).indent with
  | 0 => failure
  | n + 1 => modify fun w => { w with indent := n }

def openScope (bound : List String) : Writing Unit :=
  modify fun w => { w with scopes := ⟨bound, 0⟩ :: w.scopes }

def closeBlocks : Nat → Writing Unit
  | 0 => return
  | n + 1 => do
    dedent
    line "\x7d"
    closeBlocks n

def closeScope : Writing Unit := do
  match (← get).scopes with
  | [] => return
  | s :: outer =>
    modify fun w => { w with scopes := outer }
    closeBlocks s.reopened

def inScope (bound : List String) (body : Writing Unit) : Writing Unit := do
  openScope bound
  body
  closeScope

def nested (body : Writing Unit) : Writing Unit := do
  indent
  body
  dedent

def braced (head : String) (body : Writing Unit) : Writing Unit := do
  line head
  nested body
  line "\x7d"

def apart (body : Writing Unit) : Writing String := do
  let before := (← get).out
  modify fun w => { w with out := "" }
  body
  let inside := (← get).out
  modify fun w => { w with out := before }
  return inside

def rebinds (names : List String) : Writing Bool :=
  return (← get).scopes.head?.any fun s => redeclares s.declared names

/-- Opens a block that lasts to the end of the innermost scope. -/
def reopen : Writing Unit := do
  line "\x7b"
  indent
  modify fun w => { w with
      scopes := w.scopes.modifyHead fun s => ⟨[], s.reopened + 1⟩ }

def declare (names : List String) : Writing Unit :=
  modify fun w => { w with
      scopes := w.scopes.modifyHead fun s => { s with
          declared := names ++ s.declared } }

def temporary : Writing String := do
  modify fun w => { w with temps := w.temps + 1 }
  return s!"$local{(← get).temps}"

def temporaries : List String → Writing (List String)
  | [] => return []
  | value :: values => do
    let x ← temporary
    line ("const " ++ x ++ " = " ++ value ++ ";")
    return x :: (← temporaries values)

def lines : List String → Writing Unit
  | [] => return
  | text :: texts => do
    line text
    lines texts

def «local» (names values : List String) : Writing Unit := do
  if ← rebinds names then
    let temps ← temporaries values
    reopen
    declare names
    line ("let " ++ commaSeparated (Script.bindings names temps) ++ ";")
  else
    declare names
    line ("let " ++ commaSeparated (Script.bindings names values) ++ ";")
    lines ((values.drop names.length).map (· ++ ";"))

def bind (x : String) : Writing Unit := do
  if ← rebinds [x] then reopen
  declare [x]

/-- The name of a local function is bound before its body is written. -/
def bindFunction (target : Option Expr) (isLocal : Bool) : Writing Unit :=
  match target, isLocal with
  | some (.name x), true => bind x
  | _, _ => return

def comment (text : String) : Writing Unit :=
  if text.contains '\n' then
    line ("/*" ++ String.ofList (Script.openClosers text.toList) ++ "*/")
  else line ("//" ++ text)

def writeComments : List Comment → Writing Unit
  | [] => return
  | c :: cs => do
    comment c.text
    writeComments cs

end Writing

namespace Writer

def unaryText (op : UnaryOp) (operand : Expr) (text : String) : String :=
  match op, operand with
  | .neg, _ => "(-" ++ text ++ ")"
  | .not, _ => "(!" ++ text ++ ")"
  | .length, .number _ => "(" ++ text ++ ").length"
  | .length, _ => text ++ ".length"

def binaryText (op : BinaryOp) (left right : String) : String :=
  match op with
  | .concat => "(\"\" + " ++ left ++ " + " ++ right ++ ")"
  | op => "(" ++ left ++ " " ++ Script.operatorText op ++ " " ++ right ++ ")"

def callText (callee : String) (args : List String) : String :=
  callee ++ "(" ++ commaSeparated args ++ ")"

def methodText (key : Expr) (text : String) : String :=
  match key with
  | .name x => Script.quote x
  | _ => text

def memberText (access : Access) (object key : String) : String :=
  match access with
  | .bracket => object ++ "[" ++ key ++ "]"
  | .dot | .colon => object ++ "." ++ key

def assignText (targets values : List String) : String :=
  match targets, values with
  | [target], [value] => target ++ " = " ++ value
  | _, _ =>
    "[" ++ commaSeparated targets ++ "] = [" ++ commaSeparated values ++ "]"

def returnText : List String → String
  | [] => "return;"
  | [value] => "return " ++ value ++ ";"
  | values => "return (" ++ commaSeparated values ++ ");"

end Writer

open Writing Writer

mutual

def Expr.write : Expr → Writing String
  | .name x => return x
  | .nil => return "undefined"
  | .bool b => return toString b
  | .number x => return Script.numberText x
  | .string text => return Script.quote text
  | .unary op operand => return unaryText op operand (← operand.write)
  | .binary op left right => do
    let left ← left.write
    return binaryText op left (← right.write)
  | .call callee args => do
    match callee with
    | .member object .colon key =>
      let object ← object.write
      let key' ← key.write
      return callText "$method"
        (object :: methodText key key' :: (← writeExprs args))
    | callee =>
      let callee ← callee.write
      return callText callee (← writeExprs args)
  | .member object access key => do
    let object ← object.write
    return memberText access object (← key.write)
  | .assign targets values => do
    let targets ← writeExprs targets
    return "(" ++ assignText targets (← writeExprs values) ++ ")"
  | .table fields =>
    return "\x7b" ++ commaSeparated (← writeFields 0 fields) ++ "\x7d"
  | .function params body => writeFunction params body

def writeFunction (params : List String) (body : List Stat) :
    Writing String := do
  let inside ← apart (nested (inScope params (writeStats body)))
  return "function (" ++ commaSeparated params ++ ") \x7b\n" ++ inside ++
    Script.pad (← get).indent ++ "\x7d"

def writeExprs : List Expr → Writing (List String)
  | [] => return []
  | e :: es => do
    let e ← e.write
    return e :: (← writeExprs es)

def writeFields (position : Nat) : List Field → Writing (List String)
  | [] => return []
  | .named key value :: fs => do
    let value ← value.write
    return (Script.quote key ++ ": " ++ value) :: (← writeFields position fs)
  | .keyed key value :: fs => do
    let key ← key.write
    let value ← value.write
    return ("[" ++ key ++ "]: " ++ value) :: (← writeFields position fs)
  | .item value :: fs => do
    let value ← value.write
    return (Script.quote (toString position) ++ ": " ++ value) ::
      (← writeFields (position + 1) fs)

def Stat.write : Stat → Writing Unit
  | .do body => braced "\x7b" (inScope [] (writeStats body))
  | .break => line "break;"
  | .return values => do line (returnText (← writeExprs values))
  | .expr e => do
    match e with
    | .assign targets values =>
      let targets ← writeExprs targets
      line (assignText targets (← writeExprs values) ++ ";")
    | e => line ((← e.write) ++ ";")
  | .function target isLocal params body => do
    bindFunction target isLocal
    let function ← writeFunction params body
    match target, isLocal with
    | some (.name x), true => line ("let " ++ x ++ " = " ++ function ++ ";")
    | some (.name x), false => line ("var " ++ x ++ " = " ++ function ++ ";")
    | some target, _ => line ((← target.write) ++ " = " ++ function ++ ";")
    | none, _ => line (function ++ ";")
  | .local names values => do Writing.local names (← writeExprs values)
  | .if test body clauses otherwise => do
    line ("if (" ++ (← test.write) ++ ") \x7b")
    nested (inScope [] (writeStats body))
    writeClauses clauses
    (match otherwise with
      | none => return
      | some block => do
        line "\x7d else \x7b"
        nested (inScope [] (writeStats block)))
    line "\x7d"
  | .forRange x start stop step body => do
    let start ← start.write
    let stop ← stop.write
    let step ← step.write
    braced ("for (let " ++ x ++ " = " ++ start ++ "; " ++ x ++ " < " ++ stop ++
        "; " ++ x ++ " += " ++ step ++ ") \x7b") (inScope [] (writeStats body))
  | .forEach names source body => do
    let source ← source.write
    braced ("for (const $iter = " ++ source ++ ";;) \x7b") do
      line "const $value = $iter();"
      line "if ($value[0] === undefined) break;"
      line ("let " ++ commaSeparated (Script.stepBindings names) ++ ";")
      inScope names (writeStats body)
  | .while test body => do
    braced ("while (" ++ (← test.write) ++ ") \x7b")
      (inScope [] (writeStats body))
  | .repeat body test =>
    braced "for (;;) \x7b" <| inScope [] do
      writeStats body
      line ("if (" ++ (← test.write) ++ ") break;")

def writeStats : List Stat → Writing Unit
  | [] => return
  | s :: ss => do
    s.write
    writeStats ss

def writeClauses : List Clause → Writing Unit
  | [] => return
  | .mk test body :: cs => do
    line ("\x7d else if (" ++ (← test.write) ++ ") \x7b")
    nested (inScope [] (writeStats body))
    writeClauses cs

end

-- Their equations are made here, once for all that is proved with them.
attribute [grind =] Expr.write writeFunction writeExprs writeFields Stat.write
  writeStats writeClauses

def Chunk.write (c : Chunk) : Writing Unit := do
  Writing.write Script.prelude
  writeComments c.comments
  inScope preludeNames (writeStats c.body)

end LuaCore
