import LuaCore.Proofs.Script.Step
import LuaCore.Proofs.Script.Writer
import Mathlib.Data.List.Basic

namespace LuaCore

open Script (commaSeparated exprTexts propertyTexts statTexts branchTexts)
open Writing Writer Lowering

namespace Script

theorem statTexts_singleton (depth : Nat) (s : Stat) :
    statTexts depth [s] = s.text depth := by
  rw [statTexts, statTexts, String.append_empty]

theorem statTexts_append (depth : Nat) (ss ts : List Stat) :
    statTexts depth (ss ++ ts) = statTexts depth ss ++ statTexts depth ts := by
  induction ss with
  | nil => rw [List.nil_append, statTexts, String.empty_append]
  | cons s ss ih =>
    rw [List.cons_append, statTexts, ih, statTexts, String.append_assoc]

theorem exprTexts_eq_map (depth : Nat) (es : List Expr) :
    exprTexts depth es = es.map (·.text depth) := by
  induction es with
  | nil => rfl
  | cons e es ih => rw [exprTexts, ih, List.map_cons]

theorem exprTexts_names (depth : Nat) (names : List String) :
    exprTexts depth (names.map .name) = names := by
  rw [exprTexts_eq_map, List.map_map]
  exact List.map_id'' (fun _ => rfl) names

theorem exprTexts_drop (depth k : Nat) (es : List Expr) :
    (exprTexts depth es).drop k = exprTexts depth (es.drop k) := by
  simp only [exprTexts_eq_map, List.map_drop]

theorem statTexts_exprs (depth : Nat) (es : List Expr) :
    statTexts depth (es.map .expr) =
      String.join (((exprTexts depth es).map (· ++ ";")).map (line depth)) := by
  induction es with
  | nil => rfl
  | cons e es ih => simp [statTexts, exprTexts, Stat.text, ih]

end Script

namespace Writer.Page

def append (p : Page) (text : String) : Page := { p with out := p.out ++ text }

@[simp] theorem indent_append (p : Page) (text : String) :
    (p.append text).indent = p.indent :=
  rfl

theorem append_empty (p : Page) : p.append "" = p := by
  rw [append, String.append_empty]

theorem append_append (p : Page) (s t : String) :
    (p.append s).append t = p.append (s ++ t) := by
  simp only [append, String.append_assoc]

def declared (p : Page) : List String :=
  (p.scopes.head?.map (·.declared)).getD []

/-- The page after a statement, which may have opened a block for the rest
of its scope. -/
def after (p : Page) (l : LoweredStat) : Page :=
  match l.reopened with
  | none =>
    ⟨p.out ++ statTexts p.indent l.stats, p.indent,
      p.scopes.modifyHead fun s => ⟨l.declared, s.reopened⟩⟩
  | some first =>
    ⟨p.out ++ (statTexts p.indent l.stats ++ Script.line p.indent "\x7b" ++
          statTexts (p.indent + 1) first),
      p.indent + 1, p.scopes.modifyHead fun s => ⟨l.declared, s.reopened + 1⟩⟩

theorem modifyHead_declared (p : Page) :
    p.scopes.modifyHead (fun s => ⟨p.declared, s.reopened⟩) = p.scopes := by
  rw [declared]
  cases p.scopes <;> rfl

theorem modifyHead_declare (p : Page) (names : List String) :
    p.scopes.modifyHead (fun s => ⟨names ++ s.declared, s.reopened⟩) =
      p.scopes.modifyHead fun s => ⟨names ++ p.declared, s.reopened⟩ := by
  rw [declared]
  cases p.scopes <;> rfl

theorem after_plain (p : Page) (s : Script.Stat) :
    p.after (.plain p.declared s) = p.append (s.text p.indent) := by
  simp only [LoweredStat.plain, after, Script.statTexts_singleton,
    modifyHead_declared, append]

end Writer.Page

/-! How the writer keeps up with lowering. -/

variable {α β γ δ : Type}

/-- From a page on, the writer does not fail and makes as many temporaries
as lowering; what it gives, and the page after it, are known from what
lowering gives. -/
def Writing.Writes (p : Page) (m : Writing β) (l : Lowering α) (f : α → β)
    (after : α → Page) : Prop :=
  ∀ n, m.run ⟨p, n⟩ = some (f (l.run n).1, ⟨after (l.run n).1, (l.run n).2⟩)

def Writing.Yields (m : Writing β) (l : Lowering α) (f : Nat → α → β) : Prop :=
  ∀ p, Writes p m l (f p.indent) fun _ => p

def Writing.Appends (m : Writing Unit) (l : Lowering α)
    (text : Nat → α → String) : Prop :=
  ∀ p, Writes p m l (fun _ => ()) fun a => p.append (text p.indent a)

section Writes

variable {p p' : Page} {m : Writing β} {k : β → Writing δ} {l : Lowering α}
    {j : α → Lowering γ} {f : α → β} {g : γ → δ} {after : α → Page}
    {after' : γ → Page} {a : α} {b : β}

theorem Writing.writes_pure (hf : f a = b) (hafter : after a = p) :
    Writes p (pure b) (pure a) f after := by
  intro n
  rw [← hf, ← hafter]
  rfl

theorem Writing.writes_run (h : ∀ n, m.run ⟨p, n⟩ = some (b, ⟨p', n⟩))
    (hf : f a = b) (hafter : after a = p') :
    Writes p m (pure a) f after := by
  intro n
  rw [h n, ← hf, ← hafter]
  rfl

theorem Writing.Writes.bind (h : Writes p m l f after)
    (h' : ∀ a, Writes (after a) (k (f a)) (j a) g after') :
    Writes p (m >>= k) (l >>= j) g after' := by
  intro n
  rw [StateT.run_bind, h n]
  exact h' _ _

theorem Writing.Writes.after_run {j : Lowering γ}
    (h : ∀ n, m.run ⟨p, n⟩ = some (b, ⟨p', n⟩))
    (h' : Writes p' (k b) j g after') :
    Writes p (m >>= k) j g after' := by
  intro n
  rw [StateT.run_bind, h n]
  exact h' n

theorem Writing.Writes.before_run {after' : α → Page} {g : α → δ}
    (h : Writes p m l f after)
    (h' : ∀ a n, (k (f a)).run ⟨after a, n⟩ = some (g a, ⟨after' a, n⟩)) :
    Writes p (m >>= k) l g after' := by
  intro n
  rw [StateT.run_bind, h n]
  exact h' _ _

theorem Writing.Writes.map {F : α → γ} {G : β → δ} (h : Writes p m l f after)
    (hf : ∀ a, G (f a) = g (F a)) (hafter : ∀ a, after a = after' (F a)) :
    Writes p (m >>= fun b => pure (G b))
      (l >>= fun a => pure (F a)) g after' := by
  intro n
  rw [StateT.run_bind, h n, hafter]
  exact congrArg (fun b => some (b, _)) (hf _)

theorem Writing.Writes.map_lowering {F : α → γ} {g : γ → β}
    (h : Writes p m l f after) (hf : ∀ a, f a = g (F a))
    (hafter : ∀ a, after a = after' (F a)) :
    Writes p m (l >>= fun a => pure (F a)) g after' := by
  intro n
  rw [h n, hf, hafter]
  rfl

end Writes

namespace Writing

theorem run_write (text : String) (p : Page) (n : Nat) :
    (write text).run ⟨p, n⟩ = some ((), ⟨p.append text, n⟩) := rfl

theorem run_line (text : String) (p : Page) (n : Nat) :
    (line text).run ⟨p, n⟩ =
      some ((), ⟨p.append (Script.line p.indent text), n⟩) := rfl

theorem run_openScope (bound : List String) (p : Page) (n : Nat) :
    (openScope bound).run ⟨p, n⟩ =
      some ((), ⟨⟨p.out, p.indent, ⟨bound, 0⟩ :: p.scopes⟩, n⟩) := rfl

theorem run_reopen (p : Page) (n : Nat) :
    reopen.run ⟨p, n⟩ =
      some ((),
        ⟨⟨p.out ++ Script.line p.indent "\x7b", p.indent + 1,
            p.scopes.modifyHead fun s => ⟨[], s.reopened + 1⟩⟩,
          n⟩) := rfl

theorem run_declare (names : List String) (p : Page) (n : Nat) :
    (declare names).run ⟨p, n⟩ =
      some ((),
        ⟨⟨p.out, p.indent,
            p.scopes.modifyHead fun s => ⟨names ++ s.declared, s.reopened⟩⟩,
          n⟩) := rfl

theorem run_rebinds (names : List String) (p : Page) (n : Nat) :
    (rebinds names).run ⟨p, n⟩ =
      some (redeclares p.declared names, ⟨p, n⟩) := by
  show some
      (p.scopes.head?.any fun s => redeclares s.declared names,
        (⟨p, n⟩ : Writer)) = _
  rw [Page.declared]
  cases p.scopes with
  | nil => simp [redeclares]
  | cons s outer => rfl

theorem run_lines (texts : List String) (p : Page) (n : Nat) :
    (lines texts).run ⟨p, n⟩ =
      some ((),
        ⟨p.append (String.join (texts.map (Script.line p.indent))), n⟩) := by
  induction texts generalizing p with
  | nil => simp [lines, Page.append]
  | cons text texts ih =>
    rw [lines, StateT.run_bind, run_line, Option.bind_eq_bind, Option.bind_some,
      ih, Page.append_append]
    simp

end Writing

def Writing.closers (base : Nat) : Nat → String
  | 0 => ""
  | r + 1 => Script.line (base + r) "\x7d" ++ closers base r

theorem Writing.run_closeBlocks (r base : Nat) (out : String)
    (scopes : List Writer.Scope) (n : Nat) :
    (closeBlocks r).run ⟨⟨out, base + r, scopes⟩, n⟩ =
      some ((), ⟨⟨out ++ closers base r, base, scopes⟩, n⟩) := by
  induction r generalizing out with
  | zero =>
    rw [closers, String.append_empty]
    rfl
  | succ r ih =>
    have hstep : (closeBlocks (r + 1)).run ⟨⟨out, base + (r + 1), scopes⟩, n⟩ =
        (closeBlocks r).run
          ⟨⟨out ++ Script.line (base + r) "\x7d", base + r, scopes⟩, n⟩ := rfl
    rw [hstep, ih, closers, String.append_assoc]

theorem Writing.run_closeScope (out : String) (base r : Nat)
    (declared : List String) (outer : List Writer.Scope) (n : Nat) :
    closeScope.run ⟨⟨out, base + r, ⟨declared, r⟩ :: outer⟩, n⟩ =
      some ((), ⟨⟨out ++ closers base r, base, outer⟩, n⟩) :=
  run_closeBlocks r base out outer n

section Appends

variable {m : Writing Unit} {l : Lowering α} {text : Nat → α → String}

theorem Writing.Appends.nested (h : Appends m l text) :
    Appends (nested m) l fun depth => text (depth + 1) := by
  intro p
  exact Writes.after_run (fun _ => rfl)
    ((h { p with indent := p.indent + 1 }).before_run fun _ _ => rfl)

theorem Writing.Appends.braced (h : Appends m l text) (head : String) :
    Appends (braced head m) l fun depth a =>
      Script.line depth head ++ text (depth + 1) a ++
        Script.line depth "\x7d" := by
  intro p
  refine Writes.after_run (run_line head p)
    ((h.nested _).before_run fun a n => ?_)
  simp only [run_line, Page.append_append, String.append_assoc]
  rfl

theorem Writing.Appends.after_line (h : Appends m l text) (first : String) :
    Appends (do line first; m) l fun depth a => Script.line depth first ++
      text depth a := by
  intro p
  refine Writes.after_run (run_line first p) ?_
  simpa only [Page.append_append, Page.indent_append]
    using h (p.append (Script.line p.indent first))

theorem Writing.Appends.apart (h : Appends m l text) :
    Yields (apart m) l text := by
  intro p n
  have hrun : (Writing.apart m).run ⟨p, n⟩ =
      (m.run ⟨{ p with out := "" }, n⟩).bind fun (_, w) =>
        some (w.out, { w with out := p.out }) := rfl
  rw [hrun, h { p with out := "" } n]
  simp [Page.append]

theorem Writing.Appends.plain {F : α → Script.Stat} (h : Appends m l text)
    (p : Page) (hF : ∀ a, (F a).text p.indent = text p.indent a) :
    Writes p m (l >>= fun a => pure (.plain p.declared (F a)))
      (fun _ => ()) p.after := by
  refine (h p).map_lowering (fun _ => rfl) fun a => ?_
  rw [Page.after_plain, hF]

end Appends

section Lines

variable {p : Page} {m : Writing β} {l : Lowering α} {f : α → β}

theorem Writing.Writes.then_line (h : Writes p m l f fun _ => p)
    (text : β → String) :
    Writes p (m >>= fun b => line (text b)) l (fun _ => ())
      fun a => p.append (Script.line p.indent (text (f a))) :=
  h.before_run fun _ n => run_line _ p n

theorem Writing.Writes.line_plain {text : β → String} {F : α → Script.Stat}
    (h : Writes p m l f fun _ => p)
    (hF : ∀ a, (F a).text p.indent = Script.line p.indent (text (f a))) :
    Writes p (m >>= fun b => line (text b)) (l >>=
        fun a => pure (.plain p.declared (F a))) (fun _ => ()) p.after := by
  refine (h.then_line text).map_lowering (fun _ => rfl) fun a => ?_
  rw [Page.after_plain, hF]

end Lines

theorem Writing.writes_temporaries (values : List Script.Expr) (p : Page) :
    Writes p (temporaries (exprTexts p.indent values))
      (Lowering.temporaries values.length) id fun temps =>
      p.append (statTexts p.indent (temps.zipWith .const values)) := by
  induction values generalizing p with
  | nil => exact writes_pure rfl (Page.append_empty p)
  | cons value values ih =>
    have htemporary : Writes p temporary Lowering.temporary id fun _ => p :=
      fun _ => rfl
    refine htemporary.bind fun x => Writes.after_run (run_line _ p) ?_
    refine (ih (p.append _)).map (fun _ => rfl) fun temps => ?_
    rw [Page.append_append]
    rfl

theorem Writing.writes_local (names : List String) (values : List Script.Expr)
    (p : Page) :
    Writes p (Writing.local names (exprTexts p.indent values))
      (lowerLocal p.declared names values) (fun _ => ()) p.after := by
  refine Writes.after_run (run_rebinds names p) ?_
  unfold lowerLocal
  split
  · refine (writes_temporaries values p).bind fun temps => ?_
    refine Writes.after_run (run_reopen _)
      (Writes.after_run (run_declare names _) ?_)
    refine writes_run (run_line _ _) rfl ?_
    simp [Page.after, Page.append, Script.statTexts_singleton, Script.Stat.text,
      Script.exprTexts_names, String.append_assoc, Function.comp_def]
  · refine Writes.after_run (run_declare names p)
      (Writes.after_run (run_line _ _) ?_)
    refine writes_run (run_lines _ _) rfl ?_
    simp only [Page.after, Page.append, Script.exprTexts_drop, statTexts,
      Script.statTexts_exprs, Script.Stat.text, String.append_assoc,
      Page.modifyHead_declare]

def Writer.Page.bind (p : Page) (x : String) : Page :=
  if redeclares p.declared [x] then
    ⟨p.out ++ Script.line p.indent "\x7b", p.indent + 1,
      p.scopes.modifyHead fun s => ⟨[x], s.reopened + 1⟩⟩
  else
    ⟨p.out, p.indent,
      p.scopes.modifyHead fun s => ⟨x :: p.declared, s.reopened⟩⟩

theorem Writing.run_bind (x : String) (p : Page) (n : Nat) :
    (Writing.bind x).run ⟨p, n⟩ = some ((), ⟨p.bind x, n⟩) := by
  rw [Writing.bind, StateT.run_bind, run_rebinds, Page.bind]
  cases redeclares p.declared [x] with
  | true =>
    show some
        ((), (⟨⟨_, _, (p.scopes.modifyHead _).modifyHead _⟩, n⟩ : Writer)) = _
    rw [List.modifyHead_modifyHead]
    rfl
  | false =>
    show some ((), (⟨⟨_, _, p.scopes.modifyHead _⟩, n⟩ : Writer)) = _
    rw [Page.modifyHead_declare]
    rfl

theorem Writer.Page.after_bind (p : Page) (x : String) (params : List String)
    (body' : List Script.Stat) :
    (p.bind x).append
        (Script.line (p.bind x).indent
          ("let " ++ x ++ " = " ++
            (Script.Expr.function params body').text (p.bind x).indent ++
            ";")) =
      p.after (lowerLocalFunction p.declared x (.function params body')) := by
  unfold Page.bind lowerLocalFunction Page.after
  split <;>
    simp [Page.append, statTexts, Script.Stat.text, exprTexts, Script.bindings,
      commaSeparated, String.append_assoc]

/-- The body of a local function stands in the block with its name. -/
theorem Writing.writes_localFunction {x : String} {params : List String}
    {m : Writing String} {l : Lowering (List Script.Stat)}
    (h : Yields m l fun depth body' =>
      (Script.Expr.function params body').text depth) (p : Page) :
    Writes p (do
        bindFunction (some (.name x)) true
        line ("let " ++ x ++ " = " ++ (← m) ++ ";"))
      (do return lowerLocalFunction p.declared x (.function params (← l)))
      (fun _ => ()) p.after := by
  refine Writes.after_run (run_bind x p) ?_
  have hline := (h (p.bind x)).then_line fun function => "let " ++ x ++ " = " ++
    function ++ ";"
  exact hline.map_lowering (fun _ => rfl) (Page.after_bind p x params)

/-! The texts of what lowering chooses. -/

theorem text_lowerUnary (op : UnaryOp) (operand : Expr) (lowered : Script.Expr)
    (depth : Nat) :
    (lowerUnary op operand lowered).text depth =
      unaryText op operand (lowered.text depth) := by
  cases op with
  | length =>
    cases operand <;> simp [lowerUnary, lowerLength, unaryText,
        Script.Expr.text, String.append_assoc]
  | _ => rfl

theorem text_lowerBinary (op : BinaryOp) (left right : Script.Expr)
    (depth : Nat) :
    (lowerBinary op left right).text depth =
      binaryText op (left.text depth) (right.text depth) := by
  cases op <;> rfl

theorem text_lowerMember (access : Access) (object key : Script.Expr)
    (depth : Nat) :
    (lowerMember access object key).text depth =
      memberText access (object.text depth) (key.text depth) := by
  cases access <;> rfl

theorem text_lowerAssign (targets values : List Script.Expr) (depth : Nat) :
    (lowerAssign targets values).text depth =
      assignText (exprTexts depth targets) (exprTexts depth values) := by
  rcases targets with _ | ⟨target, _ | _⟩ <;>
    rcases values with _ | ⟨value, _ | _⟩ <;> rfl

theorem text_methodKey (key : Expr) (lowered : Script.Expr) (depth : Nat) :
    (methodKey key lowered).text depth =
      methodText key (lowered.text depth) := by
  cases key <;> rfl

theorem text_return (values : List Script.Expr) (depth : Nat) :
    (Script.Stat.return values).text depth =
      Script.line depth (returnText (exprTexts depth values)) := by
  rcases values with _ | ⟨value, _ | _⟩ <;> rfl

/-! The scopes of blocks and of functions. -/

/-- The statements of a block with what ends it, in a scope with some blocks
open already. -/
def Writing.WritesRest (ss : List Stat) : Prop :=
  ∀ (last : Writing Unit) (last' : Lowering (List Script.Stat)),
    Appends last last' statTexts →
    ∀ (out : String) (base r : Nat) (declared : List String)
        (outer : List Writer.Scope),
      Writes ⟨out, base + r, ⟨declared, r⟩ :: outer⟩
        (do writeStats ss; last; closeScope) (lowerStats declared last' ss)
        (fun _ => ()) fun stats =>
        ⟨out ++ statTexts (base + r) stats ++ closers base r, base, outer⟩

theorem Writing.WritesRest.inScope {ss : List Stat} (h : WritesRest ss)
    {last : Writing Unit} {last' : Lowering (List Script.Stat)}
    (hlast : Appends last last' statTexts) (bound : List String) :
    Appends (inScope bound (do writeStats ss; last))
      (lowerStats bound last' ss) statTexts := by
  intro p
  have hrest := h last last' hlast p.out p.indent 0 bound p.scopes
  simp only [closers, String.append_empty, Nat.add_zero] at hrest
  unfold Writing.inScope
  simp only [bind_assoc]
  exact Writes.after_run (run_openScope bound p) hrest

theorem Writing.WritesRest.block {ss : List Stat} (h : WritesRest ss)
    (bound : List String) :
    Appends (Writing.inScope bound (writeStats ss))
      (lowerStats bound (pure []) ss) statTexts := by
  have hnone : Appends (pure ()) (pure []) statTexts :=
    fun p => writes_pure rfl (Page.append_empty p)
  simpa using h.inScope hnone bound

theorem Writing.WritesRest.function {ss : List Stat} (h : WritesRest ss)
    (params : List String) :
    Yields (do
      let inside ←
        Writing.apart (nested (Writing.inScope params (writeStats ss)))
      return "function (" ++ commaSeparated params ++ ") \x7b\n" ++ inside ++
        Script.pad (← get).indent ++ "\x7d")
      (lowerStats params (pure []) ss) fun depth body' =>
        (Script.Expr.function params body').text depth := by
  intro p
  exact ((h.block params).nested.apart p).before_run fun _ _ => rfl

theorem Writing.WritesRest.nil : WritesRest [] := by
  intro last last' hlast out base r declared outer
  rw [writeStats, lowerStats, pure_bind]
  exact (hlast _).before_run fun _ _ => run_closeScope ..

theorem Writing.WritesRest.cons {s : Stat} {ss : List Stat}
    (hs : ∀ p, Writes p s.write (s.lower p.declared) (fun _ => ()) p.after)
    (hss : WritesRest ss) :
    WritesRest (s :: ss) := by
  intro last last' hlast out base r declared outer
  rw [writeStats, lowerStats, bind_assoc]
  refine (hs ⟨out, base + r, ⟨declared, r⟩ :: outer⟩).bind fun s' => ?_
  unfold LoweredStat.followedBy Page.after
  cases s'.reopened with
  | none =>
    refine (hss last last' hlast _ base r s'.declared outer).map_lowering
      (fun _ => rfl) fun rest => ?_
    simp only [Script.statTexts_append, String.append_assoc]
  | some first =>
    -- the rest is written one deeper, and `closeScope` closes the block of it
    refine (hss last last' hlast _ base (r + 1) s'.declared outer).map_lowering
      (fun _ => rfl) fun rest => ?_
    simp only [Script.statTexts_append, Script.statTexts_singleton,
      Script.Stat.text, closers, String.append_assoc]
    rfl

mutual

theorem Expr.yields (e : Expr) :
    Yields e.write e.lower fun depth e' => e'.text depth := by
  intro p
  cases e with
  | unary op operand =>
    rw [Expr.write, Expr.lower]
    exact (operand.yields p).map (fun operand' =>
        (text_lowerUnary op operand operand' _).symm) fun _ => rfl
  | binary op left right =>
    rw [Expr.write, Expr.lower]
    exact (left.yields p).bind fun left' => (right.yields p).map
      (fun right' => (text_lowerBinary op left' right' _).symm) fun _ => rfl
  | call callee args =>
    have plain : callee.isMethod = false →
        Writes p (Expr.call callee args).write (Expr.call callee args).lower
          (fun e' => e'.text p.indent) fun _ => p := by
      intro hcallee
      rw [Expr.write, Expr.lower]
      · exact (callee.yields p).bind fun callee' =>
          (yieldsExprs args p).map (fun _ => rfl) fun _ => rfl
      · rintro object key rfl
        cases hcallee
      · rintro object key rfl
        cases hcallee
    cases callee with
    | member object access key =>
      cases access with
      | colon =>
        rw [Expr.write, Expr.lower]
        refine (object.yields p).bind fun object' =>
          (key.yields p).bind fun key' =>
          (yieldsExprs args p).map (fun args' => ?_) fun _ => rfl
        rw [← text_methodKey]
        rfl
      | _ => exact plain rfl
    | _ => exact plain rfl
  | member object access key =>
    rw [Expr.write, Expr.lower]
    exact (object.yields p).bind fun object' => (key.yields p).map
      (fun key' => (text_lowerMember access object' key' _).symm) fun _ => rfl
  | assign targets values =>
    rw [Expr.write, Expr.lower]
    exact (yieldsExprs targets p).bind fun targets' =>
      (yieldsExprs values p).map (fun values' =>
          by simp only [Script.Expr.text, text_lowerAssign]) fun _ => rfl
  | table fields =>
    rw [Expr.write, Expr.lower]
    exact (yieldsFields 0 fields p).map (fun _ => rfl) fun _ => rfl
  | function params body =>
    rw [Expr.write, Expr.lower, writeFunction]
    exact ((writesRest body).function params p).map_lowering (fun _ => rfl)
      fun _ => rfl
  | _ =>
    rw [Expr.write, Expr.lower]
    exact writes_pure rfl rfl

theorem yieldsExprs (es : List Expr) :
    Yields (writeExprs es) (lowerExprs es) exprTexts := by
  intro p
  cases es with
  | nil =>
    rw [writeExprs, lowerExprs]
    exact writes_pure rfl rfl
  | cons e es =>
    rw [writeExprs, lowerExprs]
    exact (e.yields p).bind fun e' =>
      (yieldsExprs es p).map (fun _ => rfl) fun _ => rfl

theorem yieldsFields (position : Nat) (fs : List Field) :
    Yields (writeFields position fs)
      (lowerFields position fs) propertyTexts := by
  intro p
  cases fs with
  | nil =>
    rw [writeFields, lowerFields]
    exact writes_pure rfl rfl
  | cons f fs =>
    cases f with
    | named key value =>
      rw [writeFields, lowerFields]
      exact (value.yields p).bind fun value' =>
        (yieldsFields position fs p).map (fun _ => rfl) fun _ => rfl
    | keyed key value =>
      rw [writeFields, lowerFields]
      exact (key.yields p).bind fun key' => (value.yields p).bind fun value' =>
        (yieldsFields position fs p).map (fun _ => rfl) fun _ => rfl
    | item value =>
      rw [writeFields, lowerFields]
      exact (value.yields p).bind fun value' =>
        (yieldsFields (position + 1) fs p).map (fun _ => rfl) fun _ => rfl

theorem Stat.writes (s : Stat) (p : Page) :
    Writes p s.write (s.lower p.declared) (fun _ => ()) p.after := by
  cases s with
  | «do» body =>
    rw [Stat.write, Stat.lower]
    exact (((writesRest body).block []).braced _).plain p fun _ => rfl
  | «break» =>
    rw [Stat.write, Stat.lower]
    exact writes_run (run_line _ p) rfl (Page.after_plain p .break)
  | «return» values =>
    rw [Stat.write, Stat.lower]
    exact (yieldsExprs values p).line_plain fun values' =>
      text_return values' p.indent
  | expr e =>
    cases e with
    | assign targets values =>
      rw [Stat.write, Stat.lower]
      exact (yieldsExprs targets p).bind fun targets' =>
        (yieldsExprs values p).line_plain fun values' => by
        rw [Script.Stat.text, text_lowerAssign]
    | _ =>
      rw [Stat.write, Stat.lower]
      · exact (Expr.yields _ p).line_plain fun _ => rfl
      all_goals exact nofun
  | function target isLocal params body =>
    have hfunction := (writesRest body).function params
    rw [← writeFunction] at hfunction
    rw [Stat.write, Stat.lower]
    cases target with
    | none =>
      exact Writes.after_run (fun _ => rfl)
        ((hfunction p).line_plain fun _ => rfl)
    | some target =>
      have member : Writes p
          (do
            let function ← writeFunction params body
            line ((← target.write) ++ " = " ++ function ++ ";"))
          (do
            let body' ← lowerStats params (pure []) body
            return .plain p.declared
              (.expr (.assign (← target.lower) (.function params body'))))
          (fun _ => ()) p.after :=
        (hfunction p).bind fun body' =>
          (target.yields p).line_plain fun target' => by
          rw [Script.Stat.text, Script.Expr.text]
      cases target with
      | name x =>
        cases isLocal with
        | true => exact writes_localFunction hfunction p
        | false =>
          exact Writes.after_run (fun _ => rfl)
            ((hfunction p).line_plain fun _ => rfl)
      | _ => cases isLocal <;> exact Writes.after_run (fun _ => rfl) member
  | «local» names values =>
    rw [Stat.write, Stat.lower]
    exact (yieldsExprs values p).bind fun values' =>
      writes_local names values' p
  | «if» test body clauses otherwise =>
    unfold Stat.write Stat.lower
    refine (test.yields p).bind fun test' => Writes.after_run (run_line _ p) ?_
    refine (((writesRest body).block []).nested _).bind fun body' => ?_
    refine (appendsClauses clauses _).bind fun branches => ?_
    cases otherwise with
    | none =>
      refine writes_run (run_line _ _) rfl ?_
      simp only [Page.append_append, Page.indent_append, Page.after_plain,
        Script.Stat.text, String.append_assoc, String.empty_append]
    | some block =>
      refine Writes.map_lowering ((Appends.after_line
          (((writesRest block).block []).nested) _ _).before_run fun _ _ =>
          run_line _ _ _) (fun _ => rfl) fun block' => ?_
      simp only [Page.append_append, Page.indent_append, Page.after_plain,
        Script.Stat.text, String.append_assoc]
  | forRange x start stop step body =>
    rw [Stat.write, Stat.lower]
    exact (start.yields p).bind fun _ => (stop.yields p).bind fun _ =>
      (step.yields p).bind fun _ =>
      (((writesRest body).block []).braced _).plain p fun _ => rfl
  | forEach names source body =>
    rw [Stat.write, Stat.lower]
    refine (source.yields p).bind fun _ => Appends.plain
      (Appends.braced (Appends.after_line (Appends.after_line
            (Appends.after_line ((writesRest body).block names) _) _) _) _)
      p fun _ => ?_
    simp only [Script.Stat.text, String.append_assoc]
  | «while» test body =>
    rw [Stat.write, Stat.lower]
    exact (test.yields p).bind fun _ =>
      (((writesRest body).block []).braced _).plain p fun _ => rfl
  | «repeat» body test =>
    rw [Stat.write, Stat.lower]
    have htest : Appends (do line ("if (" ++ (← test.write) ++ ") break;"))
        (do return [.breakIf (← test.lower)]) statTexts := by
      intro p
      refine Writes.map_lowering (g := fun _ => ())
        ((test.yields p).then_line _) (fun _ => rfl) fun test' => ?_
      rw [Script.statTexts_singleton, Script.Stat.text]
    exact (((writesRest body).inScope htest []).braced _).plain p fun _ => rfl

theorem writesRest (ss : List Stat) : WritesRest ss := by
  cases ss with
  | nil => exact .nil
  | cons s ss => exact .cons s.writes (writesRest ss)

theorem appendsClauses (cs : List Clause) :
    Appends (writeClauses cs) (lowerClauses cs) branchTexts := by
  intro p
  cases cs with
  | nil =>
    rw [writeClauses, lowerClauses]
    exact writes_pure rfl (Page.append_empty p)
  | cons c cs =>
    cases c with
    | mk test body =>
      rw [writeClauses, lowerClauses]
      refine (test.yields p).bind fun test' =>
        Writes.after_run (run_line _ p) ?_
      refine (((writesRest body).block []).nested _).bind fun body' => ?_
      refine (appendsClauses cs _).map_lowering (fun _ => rfl) fun cs' => ?_
      simp only [Page.append_append, Page.indent_append, branchTexts,
        Script.Branch.text, String.append_assoc]

end

def Writer.start : Writer := ⟨⟨"", 0, []⟩, 0⟩

theorem Writing.run_comment (text out : String) (n : Nat) :
    (comment text).run ⟨⟨out, 0, []⟩, n⟩ =
      some ((), ⟨⟨out ++ Script.commentText text, 0, []⟩, n⟩) := by
  unfold Writing.comment Script.commentText
  split <;> rfl

theorem Writing.run_writeComments (cs : List Comment) (out : String) (n : Nat) :
    (writeComments cs).run ⟨⟨out, 0, []⟩, n⟩ =
      some ((),
        ⟨⟨out ++ String.join (cs.map fun c => Script.commentText c.text),
            0, []⟩,
          n⟩) := by
  induction cs generalizing out with
  | nil => simp [writeComments]
  | cons c cs ih =>
    rw [writeComments, StateT.run_bind, run_comment, Option.bind_eq_bind,
      Option.bind_some, ih]
    simp [String.append_assoc]

theorem Chunk.writes (c : Chunk) :
    Writes ⟨"", 0, []⟩ c.write (lowerStats preludeNames (pure []) c.body)
      (fun _ => ()) fun body =>
      ⟨Script.text ⟨c.comments.map (·.text), body⟩, 0, []⟩ := by
  refine Writes.after_run (run_write _ _)
    (Writes.after_run (run_writeComments c.comments _) ?_)
  have hbody := (writesRest c.body).block preludeNames
  simpa [Page.append, Script.text, Function.comp_def] using hbody _

/-- The writer comes to the end of every program, with the same text and with
nothing left open. -/
theorem Chunk.run_write (c : Chunk) :
    ∃ n, c.write.run Writer.start = some ((), ⟨⟨c.scriptText, 0, []⟩, n⟩) :=
  ⟨_, c.writes 0⟩

def Writer.Page.reopened (p : Page) : Nat :=
  (p.scopes.head?.map (·.reopened)).getD 0

/-- What a statement leaves of the bookkeeping: all scopes but the innermost
one, and the indent up to the blocks that it opened in that. -/
structure Writer.Page.Continues (p p' : Page) : Prop where
  outer : p'.scopes.tail = p.scopes.tail
  depth : p'.scopes.length = p.scopes.length
  indent : ∃ k, p'.reopened = p.reopened + k ∧ p'.indent = p.indent + k

theorem LoweredStat.Goes.reopened_eq_none {s : Stat} {l : LoweredStat}
    (h : l.Goes [] s) :
    l.reopened = none := by
  have hnew : ¬redeclares [] s.locals := by simp [redeclares]
  rw [LoweredStat.Goes, if_neg hnew] at h
  exact h.reopened

theorem Writer.Page.continues_after {s : Stat} {l : LoweredStat} (p : Page)
    (h : (s.lower p.declared).Gives l) :
    p.Continues (p.after l) := by
  obtain ⟨out, indent, scopes⟩ := p
  unfold Page.after
  cases scopes with
  | nil =>
    rw [(Stat.lower_goes h).reopened_eq_none]
    exact ⟨rfl, rfl, 0, rfl, rfl⟩
  | cons scope outer =>
    cases l.reopened with
    | none => exact ⟨rfl, rfl, 0, rfl, rfl⟩
    | some first => exact ⟨rfl, rfl, 1, rfl, rfl⟩

/-- Written at any time, a statement does not fail. -/
theorem Stat.exists_run_write (s : Stat) (w : Writer) :
    ∃ w', s.write.run w = some ((), w') ∧ w.toPage.Continues w'.toPage :=
  ⟨_, s.writes w.toPage w.temps, w.toPage.continues_after (gives_run _ _)⟩

theorem Expr.exists_run_write (e : Expr) (w : Writer) :
    ∃ text n, e.write.run w = some (text, { w with temps := n }) :=
  ⟨_, _, e.yields w.toPage w.temps⟩

end LuaCore
