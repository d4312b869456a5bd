import LuaCore.Proofs.Evaluation.Ending
import LuaCore.Proofs.Reader.Method
import LuaCore.Proofs.Reader.Parenthesized

namespace LuaCore

open LuaCore.Action

def Expr.callMethod (e : Expr) (name : String) (es : List Expr) : Expr :=
  .call (.member e .colon (.name name)) es

/-- A call of a function in a table, which names the variable that holds the
table as the first argument. -/
def Expr.callMember (object name : String) (es : List Expr) : Expr :=
  .call (.member (.name object) .dot (.name name)) (.name object :: es)

def Action.storeNew (scope : ScopeId) (object name shown : String)
    (c : Closure) : Action Flow := do
  let f ← makeClosure shown c
  let t ← lookup scope object
  setIndex t (.string name) f
  return .normal

/-- Two ends that differ at most in the name that a function displays, which is
stored in a table. -/
inductive Outcome.AlikeButShown (shown shown' : String) :
    Outcome Flow → Outcome Flow → Prop
  | failed (e : RuntimeError) (τ : Store) :
      AlikeButShown shown shown' (.fail e τ) (.fail e τ)
  | stored (τ : Store) (table id : Nat) (k : Key) (key : Value) :
      AlikeButShown shown shown'
        (.done .normal { τ with
          heap := τ.heap.putEntry table k key (.ref (.closure id shown)) })
        (.done .normal { τ with
          heap := τ.heap.putEntry table k key (.ref (.closure id shown')) })

def Session.concluded (s : Session) : Outcome Flow → Answer × Session
  | .done .normal σ => (.value .nil, { s with store := σ })
  | .done (.returned v) σ => (.value v, { s with store := σ })
  | .done .broke σ => (.failed .breakOutsideLoop, { s with store := σ })
  | .fail e σ => (.failed e, { s with store := σ })
  | .outOfFuel => (.unfinished, s)

namespace Machine

variable {host : Host} {limit : Nat} {scope : ScopeId} {object name : String}
    {params : List String} {body : Block}
variable {e : Expr} {es : List Expr} {σ : Store}

theorem storeNew_alike (shown shown' : String) (c : Closure) :
    Outcome.AlikeButShown shown shown' (storeNew scope object name shown c σ)
      (storeNew scope object name shown' c σ) := by
  simp only [storeNew, makeClosure, bind_apply, lookup]
  cases σ.scopes.get? scope object with
  | none => exact .failed _ _
  | some t =>
    cases t with
    | ref r =>
      cases r with
      | table id =>
        exact .stored { σ with closures := σ.closures.push c } id _ _ _
      | _ => exact .failed _ _
    | _ => exact .failed _ _

theorem storeNew_ne_outOfFuel (shown : String) (c : Closure) :
    storeNew scope object name shown c σ ≠ .outOfFuel := by
  intro h
  have halike : Outcome.AlikeButShown shown shown
      (storeNew scope object name shown c σ) _ :=
    storeNew_alike shown shown c
  rw [h] at halike
  cases halike

theorem functionName_method (object name : String) :
    functionName (some (.member (.name object) .colon (.name name))) =
      object ++ ":" ++ name := by
  simp [functionName, Expr.dottedName?, Access.text]

theorem expr_eq (n : Nat) (e : Expr) (scope : ScopeId) :
    (ofFuel host limit (n + 1)).expr e scope =
      (ofFuel host limit n).evalExpr e scope := rfl

theorem expr_name (n : Nat) (x : String) :
    (ofFuel host limit (n + 1)).expr (.name x) scope = lookup scope x :=
  rfl

theorem evalStat_method (n : Nat) :
    (ofFuel host limit (n + 1)).evalStat
        (.method object name params body) scope =
      storeNew scope object name (object ++ ":" ++ name)
        ⟨"self" :: params, body, scope⟩ := by
  simp only [Stat.method, evalStat, functionName_method, storeFunction,
    expr_name, memberKey, storeNew, bind_assoc, pure_bind]

theorem evalStat_assignMethod (n : Nat) :
    (ofFuel host limit (n + 2)).evalStat
        (.assignMethod object name params body) scope =
      storeNew scope object name "anonymous"
        ⟨"self" :: params, body, scope⟩ := by
  have hfunction : (ofFuel host limit (n + 1)).expr
        (.function ("self" :: params) body) scope =
      makeClosure "anonymous" ⟨"self" :: params, body, scope⟩ := rfl
  rw [Stat.assignMethod, evalStat, expr_eq]
  simp only [evalExpr, exprs, hfunction, storeAll, store, expr_name, memberKey,
    storeNew, bind_assoc, pure_bind]

theorem ends_method_iff {o : Outcome Flow} :
    Ends host limit
      (fun m => m.evalStat (.method object name params body) scope) σ o ↔
      o = storeNew scope object name (object ++ ":" ++ name)
          ⟨"self" :: params, body, scope⟩ σ := by
  have hends : Ends host limit
      (fun m => m.evalStat (.method object name params body) scope) σ
      (storeNew scope object name (object ++ ":" ++ name)
        ⟨"self" :: params, body, scope⟩ σ) :=
    ⟨storeNew_ne_outOfFuel _ _, 1, congrFun (evalStat_method 0) σ⟩
  exact ⟨fun h => hends.unique h (settles_evalStat _ scope), fun h => h ▸ hends⟩

theorem ends_assignMethod_iff {o : Outcome Flow} :
    Ends host limit
      (fun m => m.evalStat (.assignMethod object name params body) scope) σ o ↔
      o = storeNew scope object name "anonymous"
          ⟨"self" :: params, body, scope⟩ σ := by
  have hends : Ends host limit
      (fun m => m.evalStat (.assignMethod object name params body) scope) σ
      (storeNew scope object name "anonymous"
        ⟨"self" :: params, body, scope⟩ σ) :=
    ⟨storeNew_ne_outOfFuel _ _, 2, congrFun (evalStat_assignMethod 0) σ⟩
  exact ⟨fun h => hends.unique h (settles_evalStat _ scope), fun h => h ▸ hends⟩

theorem SameEnds.of_eq {α : Type} {run run' : Machine → Action α}
    (hrun : Settles host limit run) (hrun' : Settles host limit run') (k : Nat)
    (h : ∀ n, run (ofFuel host limit (n + k)) =
      run' (ofFuel host limit (n + k))) :
    SameEnds host limit run run' := by
  intro σ o
  constructor
  · rintro ⟨ho, n, rfl⟩
    exact ⟨ho, n + k,
      (congrFun (h n) σ).symm.trans (hrun.eq (Nat.le_add_right n k) ho)⟩
  · rintro ⟨ho, n, rfl⟩
    exact ⟨ho, n + k,
      (congrFun (h n) σ).trans (hrun'.eq (Nat.le_add_right n k) ho)⟩

theorem settles_exprs (es : List Expr) (scope : ScopeId) :
    Settles host limit fun m => m.exprs scope es := by
  induction es with
  | nil => exact settles_const _
  | cons e es ih =>
    exact (settles_expr e scope).bind fun v => ih.bind fun vs => settles_const _

theorem settles_call (f : Value) (args : List Value) :
    Settles host limit fun m => m.call f args :=
  .of_follows fun {n _} hle =>
    have hhost : sameness.Upheld (ofFuel host limit n).host := by
      cases n <;> exact sameness.upheld host
    ((sameness_parts hle).call hhost trivial fun _ _ => trivial).imp
      fun _ _ _ _ h => h.1

/-- A call of a method: the object is evaluated, the method looked up in it, the
arguments are evaluated, and the function is called with the object before them.
Each step happens once, and the first that fails ends the call. -/
inductive CallsMethod (host : Host) (limit : Nat) (scope : ScopeId) (e : Expr)
    (name : String) (es : List Expr) (σ : Store) : Outcome Value → Prop
  | object {err : RuntimeError} {τ : Store}
      (hobject : Ends host limit (fun m => m.expr e scope) σ (.fail err τ)) :
      CallsMethod host limit scope e name es σ (.fail err τ)
  | method {v : Value} {err : RuntimeError} {τ υ : Store}
      (hobject : Ends host limit (fun m => m.expr e scope) σ (.done v τ))
      (hmethod : index v (.string name) τ = .fail err υ) :
      CallsMethod host limit scope e name es σ (.fail err υ)
  | arguments {v f : Value} {err : RuntimeError} {τ υ ω : Store}
    (hobject : Ends host limit (fun m => m.expr e scope) σ (.done v τ))
    (hmethod : index v (.string name) τ = .done f υ)
    (harguments : Ends host limit (fun m => m.exprs scope es) υ (.fail err ω)) :
    CallsMethod host limit scope e name es σ (.fail err ω)
  | called {v f : Value} {vs : List Value} {τ υ ω : Store} {o : Outcome Value}
      (hobject : Ends host limit (fun m => m.expr e scope) σ (.done v τ))
      (hmethod : index v (.string name) τ = .done f υ)
      (harguments : Ends host limit (fun m => m.exprs scope es) υ (.done vs ω))
      (hcall : Ends host limit (fun m => m.call f (v :: vs)) ω o) :
      CallsMethod host limit scope e name es σ o

/-- The arguments come after the method, and the function is called with the
object before them. -/
def callWith (m : Machine) (scope : ScopeId) (es : List Expr) (v f : Value) :
    Action Value := do
  let vs ← m.exprs scope es
  m.call f (v :: vs)

theorem evalExpr_callMethod (m : Machine) :
    m.evalExpr (.callMethod e name es) scope = (do
      let v ← m.expr e scope
      let f ← index v (.string name)
      m.callWith scope es v f) := by
  simp only [Expr.callMethod, evalExpr, callee, memberKey, callWith, bind_assoc,
    pure_bind, List.cons_append, List.nil_append]

theorem settles_callWith (scope : ScopeId) (es : List Expr) (v f : Value) :
    Settles host limit fun m => m.callWith scope es v f :=
  (settles_exprs es scope).bind fun vs => settles_call f (v :: vs)

theorem ends_callWith_iff {v f : Value} {o : Outcome Value} :
    Ends host limit (fun m => m.callWith scope es v f) σ o ↔
      (∃ vs τ, Ends host limit (fun m => m.exprs scope es) σ (.done vs τ) ∧
          Ends host limit (fun m => m.call f (v :: vs)) τ o) ∨
        ∃ err τ, Ends host limit (fun m => m.exprs scope es) σ (.fail err τ) ∧
          o = .fail err τ :=
  ends_bind_iff (settles_exprs es scope) fun vs => settles_call f (v :: vs)

theorem ends_indexed_iff {v : Value} {o : Outcome Value} :
    Ends host limit
      (fun m => index v (.string name) >>= m.callWith scope es v) σ o ↔
      (∃ f τ, index v (.string name) σ = .done f τ ∧
        Ends host limit (fun m => m.callWith scope es v f) τ o) ∨
        ∃ err τ, index v (.string name) σ = .fail err τ ∧ o = .fail err τ := by
  rw [ends_bind_iff (settles_const _) (settles_callWith scope es v)]
  simp only [ends_const_iff, ne_eq, reduceCtorEq, not_false_eq_true, true_and]

theorem ends_callMethod_iff {o : Outcome Value} :
    Ends host limit (fun m => m.expr (.callMethod e name es) scope) σ o ↔
      CallsMethod host limit scope e name es σ o := by
  have hindexed (v : Value) : Settles host limit fun m =>
      index v (.string name) >>= m.callWith scope es v :=
    (settles_const _).bind (settles_callWith scope es v)
  rw [sameEnds_expr _ scope σ o]
  simp only [evalExpr_callMethod]
  rw [ends_bind_iff (settles_expr e scope) hindexed]
  simp only [ends_indexed_iff, ends_callWith_iff]
  constructor
  · rintro (⟨v, τ, hobject,
        ⟨f, υ, hmethod,
          ⟨vs, ω, harguments, hcall⟩ | ⟨err, ω, harguments, rfl⟩⟩ |
        ⟨err, υ, hmethod, rfl⟩⟩ | ⟨err, τ, hobject, rfl⟩)
    · exact .called hobject hmethod harguments hcall
    · exact .arguments hobject hmethod harguments
    · exact .method hobject hmethod
    · exact .object hobject
  · intro h
    cases h with
    | object hobject => exact .inr ⟨_, _, hobject, rfl⟩
    | method hobject hmethod =>
      exact .inl ⟨_, _, hobject, .inr ⟨_, _, hmethod, rfl⟩⟩
    | arguments hobject hmethod harguments =>
      exact .inl
        ⟨_, _, hobject, .inl ⟨_, _, hmethod, .inr ⟨_, _, harguments, rfl⟩⟩⟩
    | called hobject hmethod harguments hcall =>
      exact .inl
        ⟨_, _, hobject, .inl ⟨_, _, hmethod, .inl ⟨_, _, harguments, hcall⟩⟩⟩

/-- A variable means the same before and after a value is indexed. -/
theorem lookup_index_lookup {α : Type} (scope : ScopeId) (x : String)
    (key : Value) (g : Value → Value → Value → Action α) :
    (do
      let v ← lookup scope x
      let f ← index v key
      let v' ← lookup scope x
      g v f v') = (do
      let v ← lookup scope x
      let f ← index v key
      g v f v) := by
  funext σ
  simp only [bind_apply, lookup]
  cases hx : σ.scopes.get? scope x with
  | none => rfl
  | some v =>
    simp only [index]
    cases v with
    | ref r =>
      cases r with
      | table id => simp only [hx]
      | _ => rfl
    | _ => rfl

theorem expr_callMember (n : Nat) :
    (ofFuel host limit (n + 3)).expr (.callMember object name es) scope = (do
      let v ← lookup scope object
      let f ← index v (.string name)
      let v' ← lookup scope object
      (ofFuel host limit (n + 2)).callWith scope es v' f) := by
  have hmember : (ofFuel host limit (n + 2)).expr
        (.member (.name object) .dot (.name name)) scope = (do
      let v ← lookup scope object
      index v (.string name)) := rfl
  rw [expr_eq, Expr.callMember]
  simp only [evalExpr, callee, hmember, exprs, expr_name, callWith, bind_assoc,
    pure_bind, List.nil_append]

/-- Looking the method up leaves the variable as it is. -/
theorem expr_callMethod (n : Nat) :
    (ofFuel host limit (n + 3)).expr
        (.callMethod (.name object) name es) scope =
      (ofFuel host limit (n + 3)).expr (.callMember object name es) scope := by
  have hvariable := lookup_index_lookup scope object (.string name) fun _ f v =>
    (ofFuel host limit (n + 2)).callWith scope es v f
  rw [expr_callMember, hvariable, expr_eq, evalExpr_callMethod, expr_name]

theorem sameEnds_callMethod :
    SameEnds host limit
      (fun m => m.expr (.callMethod (.name object) name es) scope) fun m =>
      m.expr (.callMember object name es) scope :=
  .of_eq (settles_expr _ scope) (settles_expr _ scope) 3 expr_callMethod

end Machine

namespace Session

variable {source : String} {c : Chunk}

theorem run_single (fuel : Nat) (s : Session) {stat : Stat}
    (hsource : Chunk.ofSource source = .ok c) (hc : c.body = [stat]) :
    s.run (fuel + 1) source =
      s.concluded ((Machine.ofFuel s.host s.limit fuel).evalStat stat
          Scopes.rootId s.store) := by
  have hblock :
      (Machine.ofFuel s.host s.limit (fuel + 1)).block [stat] Scopes.rootId =
        (Machine.ofFuel s.host s.limit fuel).evalStat stat Scopes.rootId :=
    Simulation.evalBlock_single
      (Machine.ofFuel s.host s.limit fuel) stat Scopes.rootId
  rw [run, hsource]
  show s.interpret (fuel + 1) c = _
  rw [interpret, topLevel, bind_apply, hc, hblock]
  cases (Machine.ofFuel s.host s.limit fuel).evalStat stat Scopes.rootId
    s.store with
  | done flow σ => cases flow <;> rfl
  | fail e σ => rfl
  | outOfFuel => rfl

end Session

/-- A text is read as a method if and only if the other one is read as the
assignment of the function with that parameter, and the runs of both end alike
but for the name that the function displays. A call of a method of a variable
ends as the call that names the variable as its first argument does; and
whatever expression a method is called of is evaluated once, before all else,
and its value is handed over. -/
theorem methods_explicit_self (host : Host) (limit : Nat)
    (object name : String) :
    (∀ {s u : String} {params : List String} {tokens : List TokenKind},
      (Tokens.ofSource s).Spell (methodText object name params tokens) →
        (Tokens.ofSource u).Spell (assignMethodText object name params tokens) →
        (∀ t, Chunk.ofSource u ≠ .error (.grammatical ⟨.tooDeep, t⟩)) →
        ∀ body,
          ((∃ p, Chunk.ofSource s = .ok p ∧
              p.body = [.method object name params body]) ↔
            ∃ q, Chunk.ofSource u = .ok q ∧
              q.body = [.assignMethod object name params body]) ∧
          ((∃ p, Chunk.ofSource s = .ok p ∧
              p.body = [.method object name params body]) →
            ∀ (session : Session) (fuel : Nat), 3 ≤ fuel →
              session.run fuel s = session.concluded
                  (storeNew Scopes.rootId object name (object ++ ":" ++ name)
                    ⟨"self" :: params, body, Scopes.rootId⟩ session.store) ∧
                session.run fuel u = session.concluded
                  (storeNew Scopes.rootId object name "anonymous"
                    ⟨"self" :: params, body, Scopes.rootId⟩ session.store))) ∧
    (∀ params body scope σ,
      (∀ o,
        Machine.Ends host limit
            (fun m => m.evalStat (.method object name params body) scope) σ o ↔
          o = storeNew scope object name (object ++ ":" ++ name)
            ⟨"self" :: params, body, scope⟩ σ) ∧
      (∀ o,
        Machine.Ends host limit
            (fun m => m.evalStat (.assignMethod object name params body) scope)
            σ o ↔
          o = storeNew scope object name "anonymous"
            ⟨"self" :: params, body, scope⟩ σ) ∧
      Outcome.AlikeButShown (object ++ ":" ++ name) "anonymous"
        (storeNew scope object name (object ++ ":" ++ name)
          ⟨"self" :: params, body, scope⟩ σ)
        (storeNew scope object name "anonymous"
          ⟨"self" :: params, body, scope⟩ σ)) ∧
    (∀ es scope,
      Machine.SameEnds host limit
        (fun m => m.expr (.callMethod (.name object) name es) scope)
        fun m => m.expr (.callMember object name es) scope) ∧
    ∀ e es scope σ o,
      Machine.Ends host limit
          (fun m => m.expr (.callMethod e name es) scope) σ o ↔
        Machine.CallsMethod host limit scope e name es σ o := by
  refine ⟨fun hs hu hlevels body => ?_, fun params body scope σ => ?_,
    fun es scope => Machine.sameEnds_callMethod,
    fun e es scope σ o => Machine.ends_callMethod_iff⟩
  · have hread := Chunk.ofSource_method_iff hs hu hlevels body
    refine ⟨hread, fun hmethod session fuel hfuel => ?_⟩
    obtain ⟨n, rfl⟩ := Nat.exists_eq_add_of_le' hfuel
    obtain ⟨q, hq, hassign⟩ := hread.mp hmethod
    obtain ⟨p, hp, hmethod⟩ := hmethod
    constructor
    · rw [Session.run_single _ session hp hmethod, Machine.evalStat_method]
    · rw [Session.run_single _ session hq hassign,
        Machine.evalStat_assignMethod]
  · exact ⟨fun o => Machine.ends_method_iff,
      fun o => Machine.ends_assignMethod_iff, Machine.storeNew_alike _ _ _⟩

/-- In a session with a table `a`, both texts store a function in it. -/
theorem methods_explicit_self_field :
    let session : Session := ⟨#[], 200, ⟨⟨#[⟨[("a", .ref (.table 0))], []⟩]⟩,
        #[], ⟨#[.empty], #[], ⟨"", none⟩⟩, 0⟩⟩
    ((session.run 3
          "function a:d(v) self.b = v; end").2.store.heap.table 0).entries =
        #[(.string "d", .ref (.closure 0 "a:d"))] ∧
      ((session.run 3
          "a.d = function(self, v) self.b = v; end").2.store.heap.table
            0).entries =
        #[(.string "d", .ref (.closure 0 "anonymous"))] := by
  intro session
  let body : Block :=
    [.expr (.assign [.member (.name "self") .dot (.name "b")] [.name "v"])]
  have hs : (Tokens.ofSource "function a:d(v) self.b = v; end").Spell
      (methodText "a" "d" ["v"] (blockText body)) :=
    Tokens.spell_at ⟨1, 32⟩ (by decide +kernel) (by decide +kernel)
  have hu : (Tokens.ofSource "a.d = function(self, v) self.b = v; end").Spell
      (assignMethodText "a" "d" ["v"] (blockText body)) :=
    Tokens.spell_at ⟨1, 40⟩ (by decide +kernel) (by decide +kernel)
  have hassign :
      (Tokens.ofSource "a.d = function(self, v) self.b = v; end").Spell
        (assignText [(0, .member (.name "a") .dot (.name "d"))]
          [.function ["self", "v"] body]) := hu
  have hread := (Chunk.ofSource_assignText (by simp) (by decide) (by simp)
      (by decide) hassign).1 (by decide)
  have hruns := (methods_explicit_self session.host session.limit "a" "d").1 hs
    hu (by simp [hread]) body
  have hmethod :=
    hruns.2 (hruns.1.mpr ⟨_, hread, rfl⟩) session 3 (Nat.le_refl 3)
  have hentries : ∀ shown,
      let f : Closure := ⟨["self", "v"], body, Scopes.rootId⟩
      ((session.concluded (storeNew Scopes.rootId "a" "d" shown f
          session.store)).2.store.heap.table 0).entries =
        #[(.string "d", .ref (.closure 0 shown))] := by
    intro shown
    have hput :
        Table.empty.put (.string "d") (.string "d") (.ref (.closure 0 shown)) =
          Table.empty.append (.string "d") (.string "d")
            (.ref (.closure 0 shown)) := by
      simp [Table.put, Table.empty]
    exact congrArg Table.entries hput
  rw [hmethod.1, hmethod.2]
  exact ⟨hentries _, hentries _⟩

end LuaCore
