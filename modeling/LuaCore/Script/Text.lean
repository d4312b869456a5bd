import LuaCore.Script.Quoted
import LuaCore.Script.Lowering

namespace LuaCore.Script

def pad (depth : Nat) : String := String.ofList (List.replicate (4 * depth) ' ')

def line (depth : Nat) (text : String) : String := pad depth ++ text ++ "\n"

def commaSeparated (parts : List String) : String := ", ".intercalate parts

def operatorText : BinaryOp → String
  | .or => "||"
  | .and => "&&"
  | .equal => "==="
  | .notEqual => "!=="
  | .pow => "**"
  | op => op.text

def numberText (x : Float) : String :=
  if x.isInf then "Infinity" else Number.plain x

def bindings : List String → List String → List String
  | [], _ => []
  | x :: xs, [] => x :: bindings xs []
  | x :: xs, value :: values => (x ++ " = " ++ value) :: bindings xs values

/-- The parts of a value that an iterator yields, by position. -/
def stepBindings (names : List String) : List String :=
  bindings names ((List.range names.length).map fun i => s!"$value[{i}]")

mutual

def Expr.text (depth : Nat) : Expr → String
  | .name x => x
  | .undefined => "undefined"
  | .bool b => toString b
  | .number x => numberText x
  | .string text => quote text
  | .group e => "(" ++ e.text depth ++ ")"
  | .negate e => "(-" ++ e.text depth ++ ")"
  | .complement e => "(!" ++ e.text depth ++ ")"
  | .binary op left right =>
    "(" ++ left.text depth ++ " " ++ operatorText op ++ " " ++
      right.text depth ++ ")"
  | .join left right =>
    "(\"\" + " ++ left.text depth ++ " + " ++ right.text depth ++ ")"
  | .call callee args =>
    callee.text depth ++ "(" ++ commaSeparated (exprTexts depth args) ++ ")"
  | .member object key => object.text depth ++ "." ++ key.text depth
  | .index object key => object.text depth ++ "[" ++ key.text depth ++ "]"
  | .assign target value => target.text depth ++ " = " ++ value.text depth
  | .assignAll targets values =>
    "[" ++ commaSeparated (exprTexts depth targets) ++ "] = [" ++
      commaSeparated (exprTexts depth values) ++ "]"
  | .object properties =>
    "\x7b" ++ commaSeparated (propertyTexts depth properties) ++ "\x7d"
  | .function params body =>
    "function (" ++ commaSeparated params ++ ") \x7b\n" ++
      statTexts (depth + 1) body ++ pad depth ++ "\x7d"

def exprTexts (depth : Nat) : List Expr → List String
  | [] => []
  | e :: es => e.text depth :: exprTexts depth es

def Property.text (depth : Nat) : Property → String
  | .named key value => quote key ++ ": " ++ value.text depth
  | .computed key value => "[" ++ key.text depth ++ "]: " ++ value.text depth

def propertyTexts (depth : Nat) : List Property → List String
  | [] => []
  | p :: ps => p.text depth :: propertyTexts depth ps

def Stat.text (depth : Nat) : Stat → String
  | .expr e => line depth (e.text depth ++ ";")
  | .lets names values =>
    line depth ("let " ++
        commaSeparated (bindings names (exprTexts depth values)) ++ ";")
  | .const x value =>
    line depth ("const " ++ x ++ " = " ++ value.text depth ++ ";")
  | .var x value => line depth ("var " ++ x ++ " = " ++ value.text depth ++ ";")
  | .return [] => line depth "return;"
  | .return [value] => line depth ("return " ++ value.text depth ++ ";")
  | .return values =>
    line depth ("return (" ++ commaSeparated (exprTexts depth values) ++ ");")
  | .break => line depth "break;"
  | .breakIf test => line depth ("if (" ++ test.text depth ++ ") break;")
  | .block body =>
    line depth "\x7b" ++ statTexts (depth + 1) body ++ line depth "\x7d"
  | .if test body branches otherwise =>
    line depth ("if (" ++ test.text depth ++ ") \x7b") ++
      statTexts (depth + 1) body ++ branchTexts depth branches ++
      (match otherwise with
        | none => ""
        | some block =>
          line depth "\x7d else \x7b" ++ statTexts (depth + 1) block) ++
      line depth "\x7d"
  | .forRange x start stop step body =>
    line depth
        ("for (let " ++ x ++ " = " ++ start.text depth ++ "; " ++ x ++
          " < " ++ stop.text depth ++ "; " ++ x ++ " += " ++ step.text depth ++
          ") \x7b") ++
      statTexts (depth + 1) body ++ line depth "\x7d"
  | .forEach names source body =>
    line depth ("for (const $iter = " ++ source.text depth ++ ";;) \x7b") ++
      line (depth + 1) "const $value = $iter();" ++
      line (depth + 1) "if ($value[0] === undefined) break;" ++
      line (depth + 1) ("let " ++ commaSeparated (stepBindings names) ++ ";") ++
      statTexts (depth + 1) body ++ line depth "\x7d"
  | .while test body =>
    line depth ("while (" ++ test.text depth ++ ") \x7b") ++
      statTexts (depth + 1) body ++ line depth "\x7d"
  | .forever body =>
    line depth "for (;;) \x7b" ++ statTexts (depth + 1) body ++
      line depth "\x7d"

def statTexts (depth : Nat) : List Stat → String
  | [] => ""
  | s :: ss => s.text depth ++ statTexts depth ss

def Branch.text (depth : Nat) : Branch → String
  | .mk test body =>
    line depth ("\x7d else if (" ++ test.text depth ++ ") \x7b") ++
      statTexts (depth + 1) body

def branchTexts (depth : Nat) : List Branch → String
  | [] => ""
  | b :: bs => b.text depth ++ branchTexts depth bs

end

-- Their equations are made here, once for all that is proved with them.
attribute [grind =] Expr.text exprTexts Property.text propertyTexts Stat.text
  statTexts Branch.text branchTexts

/-- Parts the two characters that would end a comment. -/
def openClosers : List Char → List Char
  | [] => []
  | '*' :: '/' :: cs => '*' :: ' ' :: '/' :: openClosers cs
  | c :: cs => c :: openClosers cs

/-- A comment of several lines stands between `/*` and `*/`, one of a single
line after `//`. -/
def commentText (text : String) : String :=
  if text.contains '\n' then
    line 0 ("/*" ++ String.ofList (openClosers text.toList) ++ "*/")
  else line 0 ("//" ++ text)

def prelude : String := String.join <| List.map (line 0) [
  "const print = (...args) => console.log(args.map(String).join(\"\\t\"));",
  "const pairs = (table) => \x7b",
  "    const keys = Object.keys(table);",
  "    let i = 0;",
  "    return () => (i < keys.length ? [keys[i], table[keys[i++]]] : [undefined, undefined]);",
  "\x7d;",
  "const ipairs = (table) => \x7b",
  "    let i = 0;",
  "    return () => (i in table ? [i, table[i++]] : [undefined, undefined]);",
  "\x7d;",
  "const $method = (object, name, ...args) => object[name](object, ...args);",
  ""]

end LuaCore.Script

namespace LuaCore

def Script.text (s : Script) : String :=
  Script.prelude ++ String.join (s.comments.map Script.commentText) ++
    Script.statTexts 0 s.body

def Chunk.scriptText (c : Chunk) : String := c.lower.text

end LuaCore
