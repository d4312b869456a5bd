import LuaCore.Reader.Basic

namespace LuaCore

open Reader

namespace Reader

/-- Wherever it starts, the reader returns `a`, builds these nodes on the way
and does nothing else. -/
def Builds {α : Type} (p : Reader α) (a : α) (ns : List Node) : Prop :=
  ∀ c : Cursor, p c = .ok a { c with built := ns.reverse ++ c.built }

section Rules

variable {α β : Type} {p : Reader α} {f : α → Reader β} {a : α} {b : β}
    {ns ms : List Node}

theorem builds_pure (a : α) : Builds (pure a) a [] := fun _ => rfl

theorem builds_build (n : Node) : Builds (build n) () [n] := fun _ => rfl

theorem builds_bind (hp : Builds p a ns) (hf : Builds (f a) b ms) :
    Builds (p >>= f) b (ns ++ ms) := by
  intro c
  rw [bind_apply, hp c]
  show f a _ = _
  rw [hf, List.reverse_append, List.append_assoc]

theorem builds_madeExpr (e : Expr) : Builds (madeExpr e) e [.expr e] :=
  builds_bind (builds_build _) (builds_pure e)

theorem builds_madeStat (s : Stat) : Builds (madeStat s) s [.stat s] :=
  builds_bind (builds_build _) (builds_pure s)

theorem builds_madeField (f : Field) : Builds (madeField f) f [.field f] :=
  builds_bind (builds_build _) (builds_pure f)

theorem Builds.of_eq (h : Builds p a ns) (heq : ns = ms) : Builds p a ms :=
  heq ▸ h

theorem builds_cons {q : Reader (List α)} {as : List α} (hp : Builds p a ns)
    (hq : Builds q as ms) :
    Builds (do return (← p) :: (← q)) (a :: as) (ns ++ ms) := by
  refine Builds.of_eq
    (builds_bind hp (builds_bind hq (builds_pure (a :: as)))) ?_
  rw [List.append_nil]

end Rules

end Reader

def rebuildName (x : String) : Reader String := do
  build (.name x)
  return x

def rebuildNames : List String → Reader (List String)
  | [] => return []
  | x :: xs => do return (← rebuildName x) :: (← rebuildNames xs)

/-- A block is a node of its own, after its statements. -/
def madeBlock (body : Block) : Reader Block := do
  build (.block body)
  return body

def madeClause (c : Clause) : Reader Clause := do
  build (.clause c)
  return c

mutual

def Expr.rebuild : Expr → Reader Expr
  | .name x => do return .name (← rebuildName x)
  | .nil => madeExpr .nil
  | .bool b => madeExpr (.bool b)
  | .number x => madeExpr (.number x)
  | .string text => madeExpr (.string text)
  | .unary op operand => do madeExpr (.unary op (← operand.rebuild))
  | .binary op left right =>
    do madeExpr (.binary op (← left.rebuild) (← right.rebuild))
  | .call callee args =>
    do madeExpr (.call (← callee.rebuild) (← rebuildExprs args))
  | .member object access key =>
    do madeExpr (.member (← object.rebuild) access (← key.rebuild))
  | .assign targets values =>
    do madeExpr (.assign (← rebuildExprs targets) (← rebuildExprs values))
  | .table fields => do madeExpr (.table (← rebuildFields fields))
  | .function params body => do
    let params ← rebuildNames params
    madeExpr (.function params (← madeBlock (← rebuildStats body)))

def rebuildExprs : List Expr → Reader (List Expr)
  | [] => return []
  | e :: es => do return (← e.rebuild) :: (← rebuildExprs es)

def Field.rebuild : Field → Reader Field
  | .named key value =>
    do madeField (.named (← rebuildName key) (← value.rebuild))
  | .keyed key value => do madeField (.keyed (← key.rebuild) (← value.rebuild))
  | .item value => do madeField (.item (← value.rebuild))

def rebuildFields : List Field → Reader (List Field)
  | [] => return []
  | f :: fs => do return (← f.rebuild) :: (← rebuildFields fs)

def Stat.rebuild : Stat → Reader Stat
  | .do body => do madeStat (.do (← madeBlock (← rebuildStats body)))
  | .break => madeStat .break
  | .return values => do madeStat (.return (← rebuildExprs values))
  | .expr e => do madeStat (.expr (← e.rebuild))
  | .function none isLocal params body => do
    let params ← rebuildNames params
    return .function none isLocal params (← madeBlock (← rebuildStats body))
  | .function (some target) isLocal params body => do
    let target ← target.rebuild
    let params ← rebuildNames params
    madeStat (.function (some target) isLocal params
        (← madeBlock (← rebuildStats body)))
  | .local names values =>
    do madeStat (.local (← rebuildNames names) (← rebuildExprs values))
  | .if test body clauses otherwise => do
    let test ← test.rebuild
    let body ← madeBlock (← rebuildStats body)
    let clauses ← rebuildClauses clauses
    madeStat (.if test body clauses (← rebuildElse otherwise))
  | .forRange x start stop step body => do
    let x ← rebuildName x
    let start ← start.rebuild
    let stop ← stop.rebuild
    let step ← step.rebuild
    madeStat (.forRange x start stop step (← madeBlock (← rebuildStats body)))
  | .forEach names source body => do
    let names ← rebuildNames names
    let source ← source.rebuild
    madeStat (.forEach names source (← madeBlock (← rebuildStats body)))
  | .while test body => do
    let test ← test.rebuild
    madeStat (.while test (← madeBlock (← rebuildStats body)))
  | .repeat body test => do
    let body ← madeBlock (← rebuildStats body)
    madeStat (.repeat body (← test.rebuild))

def rebuildStats : List Stat → Reader (List Stat)
  | [] => return []
  | s :: ss => do return (← s.rebuild) :: (← rebuildStats ss)

def Clause.rebuild : Clause → Reader Clause
  | .mk test body => do
    let test ← test.rebuild
    madeClause (.mk test (← madeBlock (← rebuildStats body)))

def rebuildClauses : List Clause → Reader (List Clause)
  | [] => return []
  | c :: cs => do return (← c.rebuild) :: (← rebuildClauses cs)

def rebuildElse : Option (List Stat) → Reader (Option (List Stat))
  | none => return none
  | some body => do return some (← madeBlock (← rebuildStats body))

end

def rebuildComments : List Comment → Reader (List Comment)
  | [] => return []
  | c :: cs => do
    build (.comment c)
    return c :: (← rebuildComments cs)

def Chunk.rebuild (c : Chunk) : Reader Chunk := do
  let comments ← rebuildComments c.comments
  let body ← madeBlock (← rebuildStats c.body)
  build (.chunk ⟨body, comments⟩)
  return ⟨body, comments⟩

theorem builds_rebuildName (x : String) : Builds (rebuildName x) x [.name x] :=
  builds_bind (builds_build _) (builds_pure x)

theorem builds_rebuildNames (names : List String) :
    Builds (rebuildNames names) names (nameNodes names) := by
  induction names with
  | nil => exact builds_pure []
  | cons x xs ih => exact builds_cons (builds_rebuildName x) ih

theorem builds_madeBlock (body : Block) :
    Builds (madeBlock body) body [.block body] :=
  builds_bind (builds_build _) (builds_pure body)

theorem builds_madeClause (c : Clause) : Builds (madeClause c) c [.clause c] :=
  builds_bind (builds_build _) (builds_pure c)

mutual

theorem Expr.builds_rebuild (e : Expr) : Builds e.rebuild e e.nodes := by
  cases e with
  | name x =>
    rw [Expr.rebuild, Expr.nodes]
    exact builds_bind (builds_rebuildName x) (builds_pure _)
  | nil =>
    rw [Expr.rebuild, Expr.nodes]
    exact builds_madeExpr _
  | bool b =>
    rw [Expr.rebuild, Expr.nodes]
    exact builds_madeExpr _
  | number x =>
    rw [Expr.rebuild, Expr.nodes]
    exact builds_madeExpr _
  | string text =>
    rw [Expr.rebuild, Expr.nodes]
    exact builds_madeExpr _
  | unary op operand =>
    rw [Expr.rebuild, Expr.nodes]
    exact builds_bind operand.builds_rebuild (builds_madeExpr _)
  | binary op left right =>
    rw [Expr.rebuild, Expr.nodes, List.append_assoc]
    exact builds_bind left.builds_rebuild
      (builds_bind right.builds_rebuild (builds_madeExpr _))
  | call callee args =>
    rw [Expr.rebuild, Expr.nodes, List.append_assoc]
    exact builds_bind callee.builds_rebuild
      (builds_bind (builds_rebuildExprs args) (builds_madeExpr _))
  | member object access key =>
    rw [Expr.rebuild, Expr.nodes, List.append_assoc]
    exact builds_bind object.builds_rebuild
      (builds_bind key.builds_rebuild (builds_madeExpr _))
  | assign targets values =>
    rw [Expr.rebuild, Expr.nodes, List.append_assoc]
    exact builds_bind (builds_rebuildExprs targets)
      (builds_bind (builds_rebuildExprs values) (builds_madeExpr _))
  | table fields =>
    rw [Expr.rebuild, Expr.nodes]
    exact builds_bind (builds_rebuildFields fields) (builds_madeExpr _)
  | function params body =>
    rw [Expr.rebuild, Expr.nodes, List.append_assoc]
    exact builds_bind (builds_rebuildNames params)
      (builds_bind (builds_rebuildStats body)
        (builds_bind (builds_madeBlock body) (builds_madeExpr _)))

theorem builds_rebuildExprs (es : List Expr) :
    Builds (rebuildExprs es) es (exprNodes es) := by
  cases es with
  | nil =>
    rw [rebuildExprs, exprNodes]
    exact builds_pure []
  | cons e es =>
    rw [rebuildExprs, exprNodes]
    exact builds_cons e.builds_rebuild (builds_rebuildExprs es)

theorem Field.builds_rebuild (f : Field) : Builds f.rebuild f f.nodes := by
  cases f with
  | named key value =>
    rw [Field.rebuild]
    refine Builds.of_eq (builds_bind (builds_rebuildName key)
      (builds_bind value.builds_rebuild
        (builds_madeField (.named key value)))) ?_
    simp [Field.nodes]
  | keyed key value =>
    rw [Field.rebuild, Field.nodes, List.append_assoc]
    exact builds_bind key.builds_rebuild
      (builds_bind value.builds_rebuild (builds_madeField _))
  | item value =>
    rw [Field.rebuild, Field.nodes]
    exact builds_bind value.builds_rebuild (builds_madeField _)

theorem builds_rebuildFields (fs : List Field) :
    Builds (rebuildFields fs) fs (fieldNodes fs) := by
  cases fs with
  | nil =>
    rw [rebuildFields, fieldNodes]
    exact builds_pure []
  | cons f fs =>
    rw [rebuildFields, fieldNodes]
    exact builds_cons f.builds_rebuild (builds_rebuildFields fs)

theorem Stat.builds_rebuild (s : Stat) : Builds s.rebuild s s.nodes := by
  cases s with
  | «do» body =>
    rw [Stat.rebuild, Stat.nodes]
    exact builds_bind (builds_rebuildStats body)
      (builds_bind (builds_madeBlock body) (builds_madeStat _))
  | «break» =>
    rw [Stat.rebuild, Stat.nodes]
    exact builds_madeStat _
  | «return» values =>
    rw [Stat.rebuild, Stat.nodes]
    exact builds_bind (builds_rebuildExprs values) (builds_madeStat _)
  | expr e =>
    rw [Stat.rebuild, Stat.nodes]
    exact builds_bind e.builds_rebuild (builds_madeStat _)
  | function target isLocal params body =>
    cases target with
    | none =>
      rw [Stat.rebuild, Stat.nodes, List.append_assoc]
      exact builds_bind (builds_rebuildNames params)
        (builds_bind (builds_rebuildStats body)
          (builds_bind (builds_madeBlock body) (builds_pure _)))
    | some target =>
      rw [Stat.rebuild, Stat.nodes, List.append_assoc, List.append_assoc]
      exact builds_bind target.builds_rebuild (builds_bind
          (builds_rebuildNames params) (builds_bind (builds_rebuildStats body)
            (builds_bind (builds_madeBlock body) (builds_madeStat _))))
  | «local» names values =>
    rw [Stat.rebuild, Stat.nodes, List.append_assoc]
    exact builds_bind (builds_rebuildNames names)
      (builds_bind (builds_rebuildExprs values) (builds_madeStat _))
  | «if» test body clauses otherwise =>
    rw [Stat.rebuild]
    refine Builds.of_eq (builds_bind test.builds_rebuild
        (builds_bind (builds_rebuildStats body) (builds_bind
            (builds_madeBlock body) (builds_bind (builds_rebuildClauses clauses)
              (builds_bind (builds_rebuildElse otherwise)
                (builds_madeStat (.if test body clauses otherwise))))))) ?_
    cases otherwise <;> simp [Stat.nodes]
  | forRange x start stop step body =>
    rw [Stat.rebuild]
    refine Builds.of_eq (builds_bind (builds_rebuildName x)
        (builds_bind start.builds_rebuild (builds_bind stop.builds_rebuild
            (builds_bind step.builds_rebuild (builds_bind
                (builds_rebuildStats body) (builds_bind (builds_madeBlock body)
                  (builds_madeStat (.forRange x start stop step body)))))))) ?_
    simp [Stat.nodes]
  | forEach names source body =>
    rw [Stat.rebuild, Stat.nodes, List.append_assoc, List.append_assoc]
    exact builds_bind (builds_rebuildNames names)
      (builds_bind source.builds_rebuild (builds_bind (builds_rebuildStats body)
          (builds_bind (builds_madeBlock body) (builds_madeStat _))))
  | «while» test body =>
    rw [Stat.rebuild, Stat.nodes, List.append_assoc]
    exact builds_bind test.builds_rebuild
      (builds_bind (builds_rebuildStats body)
        (builds_bind (builds_madeBlock body) (builds_madeStat _)))
  | «repeat» body test =>
    rw [Stat.rebuild]
    refine Builds.of_eq (builds_bind (builds_rebuildStats body)
        (builds_bind (builds_madeBlock body) (builds_bind test.builds_rebuild
            (builds_madeStat (.repeat body test))))) ?_
    simp [Stat.nodes]

theorem builds_rebuildStats (body : List Stat) :
    Builds (rebuildStats body) body (statNodes body) := by
  cases body with
  | nil =>
    rw [rebuildStats, statNodes]
    exact builds_pure []
  | cons s ss =>
    rw [rebuildStats, statNodes]
    exact builds_cons s.builds_rebuild (builds_rebuildStats ss)

theorem Clause.builds_rebuild (c : Clause) : Builds c.rebuild c c.nodes := by
  cases c with
  | mk test body =>
    rw [Clause.rebuild, Clause.nodes, List.append_assoc]
    exact builds_bind test.builds_rebuild
      (builds_bind (builds_rebuildStats body)
        (builds_bind (builds_madeBlock body) (builds_madeClause _)))

theorem builds_rebuildClauses (cs : List Clause) :
    Builds (rebuildClauses cs) cs (clauseNodes cs) := by
  cases cs with
  | nil =>
    rw [rebuildClauses, clauseNodes]
    exact builds_pure []
  | cons c cs =>
    rw [rebuildClauses, clauseNodes]
    exact builds_cons c.builds_rebuild (builds_rebuildClauses cs)

theorem builds_rebuildElse (otherwise : Option (List Stat)) :
    Builds (rebuildElse otherwise) otherwise
      (match otherwise with
        | none => []
        | some block => statNodes block ++ [.block block]) := by
  cases otherwise with
  | none =>
    rw [rebuildElse]
    exact builds_pure none
  | some body =>
    rw [rebuildElse]
    refine Builds.of_eq (builds_bind (builds_rebuildStats body)
      (builds_bind (builds_madeBlock body) (builds_pure (some body)))) ?_
    simp

end

theorem builds_rebuildComments (cs : List Comment) :
    Builds (rebuildComments cs) cs (cs.map .comment) := by
  induction cs with
  | nil => exact builds_pure []
  | cons c cs ih =>
    refine Builds.of_eq (builds_bind (builds_build (.comment c))
      (builds_bind ih (builds_pure (c :: cs)))) ?_
    rw [List.append_nil]
    rfl

theorem Chunk.builds_rebuild (c : Chunk) : Builds c.rebuild c c.nodes := by
  refine Builds.of_eq
    (builds_bind (builds_rebuildComments c.comments) (builds_bind
        (builds_rebuildStats c.body) (builds_bind (builds_madeBlock c.body)
          (builds_bind (builds_build (.chunk c)) (builds_pure c))))) ?_
  simp [Chunk.nodes]

end LuaCore
