import LuaCore.Proofs.Scope.WellScoped

/-! A statement that declares nothing may stand in a `do` block that holds it
alone, on either side and at any depth. -/

namespace LuaCore

mutual

/-- The same expression, but for the statements of the functions in it. Where
`blocks` does not hold, no blocks may be added, and the code is the same. -/
inductive Expr.Alike (blocks : Prop) : Expr → Expr → Prop
  | name (x : String) : Expr.Alike blocks (.name x) (.name x)
  | nil : Expr.Alike blocks .nil .nil
  | bool (b : Bool) : Expr.Alike blocks (.bool b) (.bool b)
  | number (x : Float) : Expr.Alike blocks (.number x) (.number x)
  | string (text : String) : Expr.Alike blocks (.string text) (.string text)
  | unary (op : UnaryOp) {e e' : Expr} (h : Expr.Alike blocks e e') :
    Expr.Alike blocks (.unary op e) (.unary op e')
  | binary (op : BinaryOp) {e e' f f' : Expr} (he : Expr.Alike blocks e e')
      (hf : Expr.Alike blocks f f') :
      Expr.Alike blocks (.binary op e f) (.binary op e' f')
  | call {f f' : Expr} {es es' : List Expr} (hf : Expr.Alike blocks f f')
      (hes : ExprsAlike blocks es es') :
      Expr.Alike blocks (.call f es) (.call f' es')
  | member (access : Access) {e e' k k' : Expr} (he : Expr.Alike blocks e e')
      (hk : Expr.Alike blocks k k') :
      Expr.Alike blocks (.member e access k) (.member e' access k')
  | assign {ts ts' es es' : List Expr} (hts : ExprsAlike blocks ts ts')
      (hes : ExprsAlike blocks es es') :
      Expr.Alike blocks (.assign ts es) (.assign ts' es')
  | table {fs fs' : List Field} (h : FieldsAlike blocks fs fs') :
    Expr.Alike blocks (.table fs) (.table fs')
  | function (params : List String) {b b' : Block}
      (h : BlockAlike blocks b b') :
      Expr.Alike blocks (.function params b) (.function params b')

inductive ExprsAlike (blocks : Prop) : List Expr → List Expr → Prop
  | nil : ExprsAlike blocks [] []
  | cons {e e' : Expr} {es es' : List Expr} (he : Expr.Alike blocks e e')
    (hes : ExprsAlike blocks es es') : ExprsAlike blocks (e :: es) (e' :: es')

inductive Field.Alike (blocks : Prop) : Field → Field → Prop
  | named (key : String) {e e' : Expr} (h : Expr.Alike blocks e e') :
    Field.Alike blocks (.named key e) (.named key e')
  | keyed {k k' e e' : Expr} (hk : Expr.Alike blocks k k')
      (he : Expr.Alike blocks e e') :
      Field.Alike blocks (.keyed k e) (.keyed k' e')
  | item {e e' : Expr} (h : Expr.Alike blocks e e') :
      Field.Alike blocks (.item e) (.item e')

inductive FieldsAlike (blocks : Prop) : List Field → List Field → Prop
  | nil : FieldsAlike blocks [] []
  | cons {f f' : Field} {fs fs' : List Field} (hf : Field.Alike blocks f f')
    (hfs : FieldsAlike blocks fs fs') : FieldsAlike blocks (f :: fs) (f' :: fs')

inductive Stat.Alike (blocks : Prop) : Stat → Stat → Prop
  | do {b b' : Block} (h : BlockAlike blocks b b') :
      Stat.Alike blocks (.do b) (.do b')
  | break : Stat.Alike blocks .break .break
  | return {es es' : List Expr} (h : ExprsAlike blocks es es') :
    Stat.Alike blocks (.return es) (.return es')
  | expr {e e' : Expr} (h : Expr.Alike blocks e e') :
      Stat.Alike blocks (.expr e) (.expr e')
  | anonymous (isLocal : Bool) (params : List String) {b b' : Block}
      (h : BlockAlike blocks b b') :
      Stat.Alike blocks (.function none isLocal params b)
        (.function none isLocal params b')
  | function (isLocal : Bool) (params : List String) {t t' : Expr}
      {b b' : Block} (ht : Expr.Alike blocks t t')
      (h : BlockAlike blocks b b') :
      Stat.Alike blocks (.function (some t) isLocal params b)
        (.function (some t') isLocal params b')
  | local (names : List String) {es es' : List Expr}
      (h : ExprsAlike blocks es es') :
      Stat.Alike blocks (.local names es) (.local names es')
  | if {e e' : Expr} {b b' : Block} {cs cs' : List Clause}
      (he : Expr.Alike blocks e e') (hb : BlockAlike blocks b b')
      (hcs : ClausesAlike blocks cs cs') :
      Stat.Alike blocks (.if e b cs none) (.if e' b' cs' none)
  | ifElse {e e' : Expr} {b b' d d' : Block} {cs cs' : List Clause}
      (he : Expr.Alike blocks e e') (hb : BlockAlike blocks b b')
      (hcs : ClausesAlike blocks cs cs') (hd : BlockAlike blocks d d') :
      Stat.Alike blocks (.if e b cs (some d)) (.if e' b' cs' (some d'))
  | forRange (x : String) {e e' f f' g g' : Expr} {b b' : Block}
      (he : Expr.Alike blocks e e') (hf : Expr.Alike blocks f f')
      (hg : Expr.Alike blocks g g') (hb : BlockAlike blocks b b') :
      Stat.Alike blocks (.forRange x e f g b) (.forRange x e' f' g' b')
  | forEach (names : List String) {e e' : Expr} {b b' : Block}
      (he : Expr.Alike blocks e e') (hb : BlockAlike blocks b b') :
      Stat.Alike blocks (.forEach names e b) (.forEach names e' b')
  | while {e e' : Expr} {b b' : Block} (he : Expr.Alike blocks e e')
      (hb : BlockAlike blocks b b') :
      Stat.Alike blocks (.while e b) (.while e' b')
  | repeat {e e' : Expr} {b b' : Block} (hb : BlockAlike blocks b b')
      (he : Expr.Alike blocks e e') :
      Stat.Alike blocks (.repeat b e) (.repeat b' e')

inductive BlockAlike (blocks : Prop) : Block → Block → Prop
  | nil : BlockAlike blocks [] []
  | cons {s s' : Stat} {b b' : Block} (hs : Stat.Alike blocks s s')
      (hb : BlockAlike blocks b b') :
      BlockAlike blocks (s :: b) (s' :: b')
  | wrap {s s' : Stat} {b b' : Block} (hblocks : blocks)
      (hnone : s.declares = []) (hs : Stat.Alike blocks s s')
      (hb : BlockAlike blocks b b') :
      BlockAlike blocks (s :: b) (.do [s'] :: b')
  | unwrap {s s' : Stat} {b b' : Block} (hblocks : blocks)
      (hnone : s.declares = []) (hs : Stat.Alike blocks s s')
      (hb : BlockAlike blocks b b') :
      BlockAlike blocks (.do [s] :: b) (s' :: b')

inductive ClausesAlike (blocks : Prop) : List Clause → List Clause → Prop
  | nil : ClausesAlike blocks [] []
  | cons {e e' : Expr} {b b' : Block} {cs cs' : List Clause}
      (he : Expr.Alike blocks e e') (hb : BlockAlike blocks b b')
      (hcs : ClausesAlike blocks cs cs') :
      ClausesAlike blocks (.mk e b :: cs) (.mk e' b' :: cs')

end

variable {blocks : Prop}

theorem Expr.Alike.dottedName? {e e' : Expr} :
    e.Alike blocks e' → e'.dottedName? = e.dottedName?
  | .name _ | .nil | .bool _ | .number _ | .string _ | .unary .. | .binary .. |
      .call .. | .assign ..
  | .table .. | .function .. => rfl
  | .member _ he hk => by
    cases hk with
    | name key => simp only [Expr.dottedName?, he.dottedName?]
    | _ => rfl

theorem Expr.Alike.functionNames {t t' : Expr} (h : t.Alike blocks t') :
    LuaCore.functionNames (some t') = LuaCore.functionNames (some t) := by
  cases h <;> rfl

theorem Stat.Alike.declares {s s' : Stat} (h : s.Alike blocks s') :
    s'.declares = s.declares := by
  cases h with
  | function _ _ ht _ => exact ht.functionNames
  | _ => rfl

/-! All code is like itself. -/

mutual

theorem Expr.Alike.refl : ∀ e : Expr, e.Alike blocks e
  | .name x => .name x
  | .nil => .nil
  | .bool b => .bool b
  | .number x => .number x
  | .string text => .string text
  | .unary op e => .unary op (.refl e)
  | .binary op e f => .binary op (.refl e) (.refl f)
  | .call f es => .call (.refl f) (ExprsAlike.refl es)
  | .member e access k => .member access (.refl e) (.refl k)
  | .assign ts es => .assign (ExprsAlike.refl ts) (ExprsAlike.refl es)
  | .table fs => .table (FieldsAlike.refl fs)
  | .function params b => .function params (BlockAlike.refl b)

theorem ExprsAlike.refl : ∀ es : List Expr, ExprsAlike blocks es es
  | [] => .nil
  | e :: es => .cons (.refl e) (.refl es)

theorem Field.Alike.refl : ∀ f : Field, f.Alike blocks f
  | .named key e => .named key (.refl e)
  | .keyed k e => .keyed (.refl k) (.refl e)
  | .item e => .item (.refl e)

theorem FieldsAlike.refl : ∀ fs : List Field, FieldsAlike blocks fs fs
  | [] => .nil
  | f :: fs => .cons (.refl f) (.refl fs)

theorem Stat.Alike.refl : ∀ s : Stat, s.Alike blocks s
  | .do b => .do (.refl b)
  | .break => .break
  | .return es => .return (.refl es)
  | .expr e => .expr (.refl e)
  | .function none isLocal params b => .anonymous isLocal params (.refl b)
  | .function (some t) isLocal params b =>
    .function isLocal params (.refl t) (.refl b)
  | .local names es => .local names (.refl es)
  | .if e b cs none => .if (.refl e) (.refl b) (.refl cs)
  | .if e b cs (some d) => .ifElse (.refl e) (.refl b) (.refl cs) (.refl d)
  | .forRange x e f g b => .forRange x (.refl e) (.refl f) (.refl g) (.refl b)
  | .forEach names e b => .forEach names (.refl e) (.refl b)
  | .while e b => .while (.refl e) (.refl b)
  | .repeat b e => .repeat (.refl b) (.refl e)

theorem BlockAlike.refl : ∀ b : Block, BlockAlike blocks b b
  | [] => .nil
  | s :: b => .cons (.refl s) (.refl b)

theorem ClausesAlike.refl : ∀ cs : List Clause, ClausesAlike blocks cs cs
  | [] => .nil
  | .mk e b :: cs => .cons (.refl e) (.refl b) (.refl cs)

end

mutual

theorem Expr.Alike.symm {e e' : Expr} : e.Alike blocks e' → e'.Alike blocks e
  | .name x => .name x
  | .nil => .nil
  | .bool b => .bool b
  | .number x => .number x
  | .string text => .string text
  | .unary op h => .unary op h.symm
  | .binary op he hf => .binary op he.symm hf.symm
  | .call hf hes => .call hf.symm hes.symm
  | .member access he hk => .member access he.symm hk.symm
  | .assign hts hes => .assign hts.symm hes.symm
  | .table h => .table h.symm
  | .function params h => .function params h.symm

theorem ExprsAlike.symm {es es' : List Expr} :
    ExprsAlike blocks es es' → ExprsAlike blocks es' es
  | .nil => .nil
  | .cons he hes => .cons he.symm hes.symm

theorem Field.Alike.symm {f f' : Field} : f.Alike blocks f' → f'.Alike blocks f
  | .named key h => .named key h.symm
  | .keyed hk he => .keyed hk.symm he.symm
  | .item h => .item h.symm

theorem FieldsAlike.symm {fs fs' : List Field} :
    FieldsAlike blocks fs fs' → FieldsAlike blocks fs' fs
  | .nil => .nil
  | .cons hf hfs => .cons hf.symm hfs.symm

theorem Stat.Alike.symm {s s' : Stat} : s.Alike blocks s' → s'.Alike blocks s
  | .do h => .do h.symm
  | .break => .break
  | .return h => .return h.symm
  | .expr h => .expr h.symm
  | .anonymous isLocal params h => .anonymous isLocal params h.symm
  | .function isLocal params ht h => .function isLocal params ht.symm h.symm
  | .local names h => .local names h.symm
  | .if he hb hcs => .if he.symm hb.symm hcs.symm
  | .ifElse he hb hcs hd => .ifElse he.symm hb.symm hcs.symm hd.symm
  | .forRange x he hf hg hb => .forRange x he.symm hf.symm hg.symm hb.symm
  | .forEach names he hb => .forEach names he.symm hb.symm
  | .while he hb => .while he.symm hb.symm
  | .repeat hb he => .repeat hb.symm he.symm

theorem BlockAlike.symm {b b' : Block} :
    BlockAlike blocks b b' → BlockAlike blocks b' b
  | .nil => .nil
  | .cons hs hb => .cons hs.symm hb.symm
  | .wrap hblocks hnone hs hb =>
    .unwrap hblocks (hs.declares.trans hnone) hs.symm hb.symm
  | .unwrap hblocks hnone hs hb =>
    .wrap hblocks (hs.declares.trans hnone) hs.symm hb.symm

theorem ClausesAlike.symm {cs cs' : List Clause} :
    ClausesAlike blocks cs cs' → ClausesAlike blocks cs' cs
  | .nil => .nil
  | .cons he hb hcs => .cons he.symm hb.symm hcs.symm

end

/-! Without blocks to add, code is like itself only. -/

mutual

theorem Expr.Alike.eq (hnone : ¬ blocks) {e e' : Expr} :
    e.Alike blocks e' → e' = e
  | .name _ | .nil | .bool _ | .number _ | .string _ => rfl
  | .unary op h => by rw [h.eq hnone]
  | .binary op he hf => by rw [he.eq hnone, hf.eq hnone]
  | .call hf hes => by rw [hf.eq hnone, hes.eq hnone]
  | .member access he hk => by rw [he.eq hnone, hk.eq hnone]
  | .assign hts hes => by rw [hts.eq hnone, hes.eq hnone]
  | .table h => by rw [h.eq hnone]
  | .function params h => by rw [h.eq hnone]

theorem ExprsAlike.eq (hnone : ¬ blocks) {es es' : List Expr} :
    ExprsAlike blocks es es' → es' = es
  | .nil => rfl
  | .cons he hes => by rw [he.eq hnone, hes.eq hnone]

theorem Field.Alike.eq (hnone : ¬ blocks) {f f' : Field} :
    f.Alike blocks f' → f' = f
  | .named key h => by rw [h.eq hnone]
  | .keyed hk he => by rw [hk.eq hnone, he.eq hnone]
  | .item h => by rw [h.eq hnone]

theorem FieldsAlike.eq (hnone : ¬ blocks) {fs fs' : List Field} :
    FieldsAlike blocks fs fs' → fs' = fs
  | .nil => rfl
  | .cons hf hfs => by rw [hf.eq hnone, hfs.eq hnone]

theorem Stat.Alike.eq (hnone : ¬ blocks) {s s' : Stat} :
    s.Alike blocks s' → s' = s
  | .do h => by rw [h.eq hnone]
  | .break => rfl
  | .return h => by rw [h.eq hnone]
  | .expr h => by rw [h.eq hnone]
  | .anonymous isLocal params h => by rw [h.eq hnone]
  | .function isLocal params ht h => by rw [ht.eq hnone, h.eq hnone]
  | .local names h => by rw [h.eq hnone]
  | .if he hb hcs => by rw [he.eq hnone, hb.eq hnone, hcs.eq hnone]
  | .ifElse he hb hcs hd =>
    by rw [he.eq hnone, hb.eq hnone, hcs.eq hnone, hd.eq hnone]
  | .forRange x he hf hg hb =>
    by rw [he.eq hnone, hf.eq hnone, hg.eq hnone, hb.eq hnone]
  | .forEach names he hb => by rw [he.eq hnone, hb.eq hnone]
  | .while he hb => by rw [he.eq hnone, hb.eq hnone]
  | .repeat hb he => by rw [hb.eq hnone, he.eq hnone]

theorem BlockAlike.eq (hnone : ¬ blocks) {b b' : Block} :
    BlockAlike blocks b b' → b' = b
  | .nil => rfl
  | .cons hs hb => by rw [hs.eq hnone, hb.eq hnone]
  | .wrap hblocks .. | .unwrap hblocks .. => absurd hblocks hnone

theorem ClausesAlike.eq (hnone : ¬ blocks) {cs cs' : List Clause} :
    ClausesAlike blocks cs cs' → cs' = cs
  | .nil => rfl
  | .cons he hb hcs => by rw [he.eq hnone, hb.eq hnone, hcs.eq hnone]

end

end LuaCore
