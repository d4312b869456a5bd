import LuaCore.Proofs.Reader.Expression
import LuaCore.Proofs.Tree.WellFormed

namespace LuaCore.Reads

open Reader

variable {rounds : Nat} {deeper : Deeper} {ks mid mid' rest : List TokenKind}
variable {fits more others : Prop} {test : Expr} {body : Block}
    {values : List Expr}

theorem returnStat_none (hrest : headKind rest = .symbol .semicolon) :
    Reads rounds (returnStat deeper) (.keyword .return :: rest) rest True
      (.return []) := by
  refine next.step (look ?_)
  rw [if_pos (.inr hrest)]
  exact pure.step (madeStat _)

theorem returnStat_some (hks : (headKind ks).closesBlock = false)
    (hsemicolon : headKind ks ≠ .symbol .semicolon)
    (hvalues : Reads rounds deeper.exprs ks rest fits values) :
    Reads rounds (returnStat deeper) (.keyword .return :: ks) rest fits
      (.return values) := by
  refine next.step (look ?_)
  rw [if_neg (not_or.mpr ⟨Bool.eq_false_iff.mp hks, hsemicolon⟩)]
  exact hvalues.last (madeStat _)

theorem dottedName_done {target : Expr} (h : headKind ks ≠ .symbol .dot)
    (m : Nat) :
    Reads rounds (dottedName m target) ks ks True target := by
  cases m with
  | zero => exact pure
  | succ m => exact (consume_other h).step pure

theorem dottedName_more {m : Nat} {target whole : Expr} (x : String)
    (h : Reads rounds
      (dottedName m (.member target .dot (.name x))) ks rest fits whole) :
    Reads rounds (dottedName (m + 1) target)
      (.symbol .dot :: .name x :: ks) rest fits whole :=
  (consume _).step ((name x).step ((madeExpr _).step h))

def owner (deeper : Deeper) : Reader Expr := do
  let first ← Reader.name
  dottedName deeper.rounds (.name first)

theorem owner_then {β : Type} {target : Expr} {f : Expr → Reader β} {b : β}
    (howner : Reads rounds (owner deeper) ks mid True target)
    (h : Reads rounds (f target) mid rest fits b) :
    Reads rounds (do
        let first ← Reader.name
        let target ← dottedName deeper.rounds (.name first)
        f target) ks rest fits b := by
  have hwhole := howner.step h
  rw [owner, bind_assoc] at hwhole
  exact hwhole

theorem functionStat_plain (hrounds : deeper.rounds = rounds) {target : Expr}
    {params : List String}
    (howner : Reads rounds (owner deeper) ks
      (signatureText params ++ mid) True target)
    (hbody : Reads rounds deeper.block mid (.keyword .end :: rest) fits body) :
    Reads rounds (functionStat deeper) (.keyword .function :: ks) rest fits
      (.function (some target) false params body) := by
  have hcolon : headKind (signatureText params ++ mid) ≠ .symbol .colon := by
    simp [signatureText]
  refine line fun opened => next.step (owner_then howner ?_)
  exact (consume_other hcolon).step (pure.step
      ((functionBody hrounds false opened params hbody).last (madeStat _)))

theorem functionStat_method (hrounds : deeper.rounds = rounds) {object : Expr}
    (x : String) {params : List String}
    (howner : Reads rounds (owner deeper) ks
      (.symbol .colon :: .name x :: (signatureText params ++ mid)) True object)
    (hbody : Reads rounds deeper.block mid (.keyword .end :: rest) fits body) :
    Reads rounds (functionStat deeper) (.keyword .function :: ks) rest fits
      (.function (some (.member object .colon (.name x))) false
        ("self" :: params) body) := by
  refine line fun opened => next.step (owner_then howner ?_)
  exact (consume _).step ((name x).step ((madeExpr _).step
    ((functionBody hrounds true opened params hbody).last (madeStat _))))

theorem localStat_function (hrounds : deeper.rounds = rounds) (opened : Nat)
    (x : String) (params : List String)
    (hbody : Reads rounds deeper.block ks (.keyword .end :: rest) fits body) :
    Reads rounds (localStat deeper opened) (.keyword .local ::
        .keyword .function :: .name x :: (signatureText params ++ ks))
      rest fits (.function (some (.name x)) true params body) :=
  next.step ((consume _).step ((name x).step
    ((functionBody hrounds false opened params hbody).last (madeStat _))))

theorem headKind_nameList_ne_function {xs : List String} (hxs : xs ≠ [])
    (ks : List TokenKind) :
    headKind (nameList xs ++ ks) ≠ .keyword .function := by
  cases xs with
  | nil => exact absurd rfl hxs
  | cons x xs => simp [nameList, separated]

theorem localStat_none (hrounds : deeper.rounds = rounds) (opened : Nat)
    {xs : List String} (hxs : xs ≠ [])
    (hrest : headKind rest = .symbol .semicolon) :
    Reads rounds (localStat deeper opened)
      (.keyword .local :: (nameList xs ++ rest)) rest True (.local xs []) := by
  have hfunction := headKind_nameList_ne_function hxs rest
  refine next.step ((consume_other hfunction).step ?_)
  rw [hrounds]
  refine (names (fun x _ => name x) (by rw [hrest]; decide) xs hxs).step ?_
  exact (consume_other (by rw [hrest]; decide)).step (pure.step (madeStat _))

theorem localStat_values (hrounds : deeper.rounds = rounds) (opened : Nat)
    {xs : List String} (hxs : xs ≠ [])
    (hvalues : Reads rounds deeper.exprs ks rest fits values) :
    Reads rounds (localStat deeper opened)
      (.keyword .local :: (nameList xs ++ .symbol .assign :: ks)) rest fits
      (.local xs values) := by
  have hfunction := headKind_nameList_ne_function hxs (.symbol .assign :: ks)
  refine next.step ((consume_other hfunction).step ?_)
  rw [hrounds]
  refine (names (fun x _ => name x) (by simp) xs hxs).step ?_
  exact (consume _).step (hvalues.last (madeStat _))

theorem branch_then
    (htest : Reads rounds deeper.expr ks (.keyword .then :: mid) fits test)
    (hbody : Reads rounds deeper.block mid rest more body) :
    Reads rounds (branch deeper) ks rest (fits ∧ more) (test, body) :=
  htest.bind ((expect _).step (hbody.last pure))

theorem clauses_done (h : headKind ks ≠ .keyword .elseif) (m : Nat) :
    Reads rounds (clauses deeper m) ks ks True [] := by
  cases m with
  | zero => exact pure
  | succ m => exact (consume_other h).step pure

theorem clauses_more {m : Nat} {cs : List Clause}
    (hbranch : Reads rounds (Reader.branch deeper) ks mid fits (test, body))
    (hmore : Reads rounds (clauses deeper m) mid rest more cs) :
    Reads rounds (clauses deeper (m + 1)) (.keyword .elseif :: ks) rest
      (fits ∧ more) (.mk test body :: cs) :=
  (consume _).step (hbranch.bind ((build _).step (hmore.last pure)))

theorem ifStat_plain (hrounds : deeper.rounds = rounds) {cs : List Clause}
    (hbranch : Reads rounds (Reader.branch deeper) ks mid fits (test, body))
    (hclauses : Reads rounds (clauses deeper rounds) mid
      (.keyword .end :: rest) more cs) :
    Reads rounds (ifStat deeper) (.keyword .if :: ks) rest (fits ∧ more)
      (.if test body cs none) := by
  have hend : headKind (.keyword .end :: rest) ≠ .keyword .else := by simp
  refine line fun opened => next.step (hbranch.bind ?_)
  rw [hrounds]
  exact hclauses.last ((consume_other hend).step
    (pure.step ((expectClosing _ _ opened).step (madeStat _))))

theorem ifStat_else (hrounds : deeper.rounds = rounds) {cs : List Clause}
    {otherwise : Block}
    (hbranch : Reads rounds (Reader.branch deeper) ks mid fits (test, body))
    (hclauses : Reads rounds (clauses deeper rounds) mid
      (.keyword .else :: mid') more cs)
    (hotherwise : Reads rounds deeper.block mid'
      (.keyword .end :: rest) others otherwise) :
    Reads rounds (ifStat deeper) (.keyword .if :: ks) rest
      (fits ∧ more ∧ others) (.if test body cs (some otherwise)) := by
  refine line fun opened => next.step (hbranch.bind ?_)
  rw [hrounds]
  exact hclauses.bind ((consume _).step (hotherwise.last
        (pure.step ((expectClosing _ _ opened).step (madeStat _)))))

theorem loopBody (opener : Keyword) (opened : Nat)
    (hbody : Reads rounds deeper.block ks (.keyword .end :: rest) fits body) :
    Reads rounds (loopBody deeper opener opened)
      (.keyword .do :: ks) rest fits body :=
  (expect _).step (hbody.last ((expectClosing _ _ opened).step pure))

theorem forStat_range {x : String} {start stop step : Expr}
    {mid₁ mid₂ : List TokenKind} {fits₁ fits₂ fits₃ fits₄ : Prop}
    (hstart : Reads rounds deeper.expr ks (.symbol .comma :: mid₁) fits₁ start)
    (hstop : Reads rounds deeper.expr mid₁ (.symbol .comma :: mid₂) fits₂ stop)
    (hstep : Reads rounds deeper.expr mid₂ (.keyword .do :: mid) fits₃ step)
    (hbody : Reads rounds deeper.block mid (.keyword .end :: rest) fits₄ body) :
    Reads rounds (forStat deeper)
      (.keyword .for :: .name x :: .symbol .assign :: ks) rest
      (fits₁ ∧ fits₂ ∧ fits₃ ∧ fits₄) (.forRange x start stop step body) := by
  refine line fun opened => next.step ((name x).step (look (next.step ?_)))
  refine hstart.bind
    ((expect _).step (hstop.bind ((consume _).step (hstep.bind ?_))))
  exact (loopBody .for opened hbody).last (madeStat _)

theorem forStat_each (hrounds : deeper.rounds = rounds) (x : String)
    (xs : List String) {source : Expr}
    (hsource : Reads rounds deeper.expr ks (.keyword .do :: mid) fits source)
    (hbody : Reads rounds deeper.block mid (.keyword .end :: rest) more body) :
    Reads rounds (forStat deeper)
      (.keyword .for :: (nameList (x :: xs) ++ .keyword .in :: ks)) rest
      (fits ∧ more) (.forEach (x :: xs) source body) := by
  refine line fun opened => next.step ((name x).step ?_)
  have heach : Reads rounds (eachLoop deeper x opened)
      (LuaCore.afterCommas (xs.map fun y => [.name y]) ++ .keyword .in :: ks)
      rest (fits ∧ more) (.forEach (x :: xs) source body) := by
    rw [eachLoop, hrounds]
    refine (moreNames (fun y _ => name y) (by simp) xs).step
      ((expect _).step (hsource.bind ?_))
    exact (loopBody .for opened hbody).last (madeStat _)
  cases xs with
  | nil => exact look heach
  | cons y ys => exact look heach

theorem assignTarget {target : Expr} (h : target.isTarget = true) :
    Reads rounds (assignTarget target) ks ks True target := by
  cases target with
  | name x => exact pure
  | member object access key => exact pure
  | _ => exact absurd h Bool.noConfusion

theorem exprStat_call {callee : Expr} {args : List Expr}
    (h : Reads rounds (primary deeper) ks rest fits (.call callee args))
    (hrest : headKind rest = .symbol .semicolon) :
    Reads rounds (exprStat deeper) ks rest fits
      (.expr (.call callee args)) := by
  refine h.last (look ?_)
  rw [hrest]
  exact madeStat _

theorem exprStat_assign (hrounds : deeper.rounds = rounds) {target : Expr}
    {targets : List Expr} (h : Reads rounds (primary deeper) ks mid fits target)
    (htarget : target.isTarget = true)
    (hmid : headKind mid = .symbol .assign ∨ headKind mid = .symbol .comma)
    (htargets : Reads rounds
      (Reader.afterCommas (do Reader.assignTarget (← primary deeper)) rounds)
      mid (.symbol .assign :: mid') more targets)
    (hvalues : Reads rounds deeper.exprs mid' rest others values) :
    Reads rounds (exprStat deeper) ks rest (fits ∧ more ∧ others)
      (.expr (.assign (target :: targets) values)) := by
  subst hrounds
  have hmore : Reads deeper.rounds (do
        let first ← Reader.assignTarget target
        let targets ← Reader.afterCommas
          (do Reader.assignTarget (← primary deeper)) deeper.rounds
        Reader.expect (.symbol .assign)
        let values ← deeper.exprs
        let e ← Reader.madeExpr (.assign (first :: targets) values)
        Reader.madeStat (.expr e)) mid rest (more ∧ others)
      (.expr (.assign (target :: targets) values)) :=
    (assignTarget htarget).step (htargets.bind ((expect _).step
      (hvalues.last ((madeExpr _).step (madeStat _)))))
  refine h.bind (look ?_)
  cases hmid with
  | inl hassign =>
    rw [hassign]
    exact hmore
  | inr hcomma =>
    rw [hcomma]
    exact hmore

section Dispatch

variable {s : Stat}

theorem stat_do
    (hbody : Reads rounds deeper.block ks (.keyword .end :: rest) fits body) :
    Reads rounds (stat deeper) (.keyword .do :: ks) rest fits (.do body) :=
  line fun opened => look
    (next.step (hbody.last ((expectClosing _ _ opened).step (madeStat _))))

theorem stat_break :
    Reads rounds (stat deeper) (.keyword .break :: ks) ks True .break :=
  line fun _ => look (next.step (madeStat _))

theorem stat_function
    (h : Reads rounds (functionStat deeper)
      (.keyword .function :: ks) rest fits s) :
    Reads rounds (stat deeper) (.keyword .function :: ks) rest fits s :=
  line fun _ => look h

theorem stat_local
    (h : ∀ opened, Reads rounds (localStat deeper opened)
      (.keyword .local :: ks) rest fits s) :
    Reads rounds (stat deeper) (.keyword .local :: ks) rest fits s :=
  line fun opened => look (h opened)

theorem stat_if
    (h : Reads rounds (ifStat deeper) (.keyword .if :: ks) rest fits s) :
    Reads rounds (stat deeper) (.keyword .if :: ks) rest fits s :=
  line fun _ => look h

theorem stat_for
    (h : Reads rounds (forStat deeper) (.keyword .for :: ks) rest fits s) :
    Reads rounds (stat deeper) (.keyword .for :: ks) rest fits s :=
  line fun _ => look h

theorem stat_while
    (htest : Reads rounds deeper.expr ks (.keyword .do :: mid) fits test)
    (hbody : Reads rounds deeper.block mid (.keyword .end :: rest) more body) :
    Reads rounds (stat deeper) (.keyword .while :: ks) rest (fits ∧ more)
      (.while test body) :=
  line fun opened => look
    (next.step (htest.bind ((loopBody .while opened hbody).last (madeStat _))))

theorem stat_repeat
    (hbody : Reads rounds deeper.block ks (.keyword .until :: mid) fits body)
    (htest : Reads rounds deeper.expr mid rest more test) :
    Reads rounds (stat deeper) (.keyword .repeat :: ks) rest (fits ∧ more)
      (.repeat body test) :=
  line fun opened => look (next.step
      (hbody.bind ((expectClosing _ _ opened).step (htest.last (madeStat _)))))

theorem stat_expr (hks : (headKind ks).opensChain = true)
    (h : Reads rounds (exprStat deeper) ks rest fits s) :
    Reads rounds (stat deeper) ks rest fits s := by
  refine line fun _ => look ?_
  generalize headKind ks = k at hks
  cases k with
  | symbol => exact h
  | name => exact h
  | _ => exact absurd hks Bool.noConfusion

end Dispatch

theorem stats_done (h : (headKind ks).closesBlock = true) (m : Nat) :
    Reads rounds (stats deeper m) ks ks True [] := by
  cases m with
  | zero => exact pure
  | succ m =>
    apply look
    rw [if_pos h]
    exact pure

theorem stats_return {m : Nat} {s : Stat}
    (h : Reads rounds (returnStat deeper) (.keyword .return :: ks)
      (.symbol .semicolon :: rest) fits s) :
    Reads rounds (stats deeper (m + 1)) (.keyword .return :: ks) rest fits
      [s] :=
  look (h.last ((consume _).step pure))

theorem stats_more {m : Nat} {s : Stat} {ss : Block}
    (hopen : (headKind ks).closesBlock = false)
    (hreturn : headKind ks ≠ .keyword .return)
    (h : Reads rounds (stat deeper) ks (.symbol .semicolon :: mid) fits s)
    (hmore : Reads rounds (stats deeper m) mid rest more ss) :
    Reads rounds (stats deeper (m + 1)) ks rest (fits ∧ more) (s :: ss) := by
  apply look
  rw [if_neg (Bool.eq_false_iff.mp hopen), if_neg hreturn]
  exact h.bind ((consume _).step (hmore.last pure))

end LuaCore.Reads
