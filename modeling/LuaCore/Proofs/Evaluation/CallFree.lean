import LuaCore.Evaluation.Statement
import LuaCore.Proofs.Store.Extension

namespace LuaCore

open LuaCore.Action

mutual

/-- Nothing is called and nothing is assigned outside the bodies of the
functions in the expression. -/
def Expr.isCallFree : Expr → Bool
  | .call .. | .assign .. => false
  | .name _ | .nil | .bool _ | .number _ | .string _ | .function .. => true
  | .unary _ operand => operand.isCallFree
  | .binary _ left right => left.isCallFree && right.isCallFree
  | .member object _ key => object.isCallFree && key.isCallFree
  | .table fields => fieldsCallFree fields

def Field.isCallFree : Field → Bool
  | .named _ value => value.isCallFree
  | .keyed key value => key.isCallFree && value.isCallFree
  | .item value => value.isCallFree

def fieldsCallFree : List Field → Bool
  | [] => true
  | f :: fs => f.isCallFree && fieldsCallFree fs

end

variable {α β : Type} {σ σ' : Store}

/-- How two runs end, one started in `σ` and one in `σ'`, that make the
same tables and functions: with results that correspond, or with one and
the same error. -/
inductive Outcome.Repeats (σ σ' : Store) (Q : α → α → Prop) :
    Outcome α → Outcome α → Prop
  | done {a a' : α} {τ τ' : Store} (h : σ.Copies σ' τ τ') (ha : Q a a') :
      Repeats σ σ' Q (.done a τ) (.done a' τ')
  | fail (e : RuntimeError) {τ τ' : Store} (h : σ.Copies σ' τ τ') :
      Repeats σ σ' Q (.fail e τ) (.fail e τ')

/-- The second action does to the second store what the first one does to the
first store. -/
def Action.Repeats (σ σ' : Store) (Q : α → α → Prop) (m m' : Action α) : Prop :=
  ∀ τ τ', σ.Copies σ' τ τ' → Outcome.Repeats σ σ' Q (m τ) (m' τ')

def Value.Counterpart (σ σ' : Store) (v v' : Value) : Prop :=
  v' = v.renamed (.past σ σ')

namespace Action.Repeats

variable {Q : α → α → Prop} {R : β → β → Prop} {m m' : Action α}
    {f f' : α → Action β} {v v' w w' : Value}

theorem pure {a a' : α} (h : Q a a') : Repeats σ σ' Q (pure a) (pure a') :=
  fun _ _ hcopies => .done hcopies h

theorem fail (e : RuntimeError) :
    Repeats σ σ' Q (Action.fail e) (Action.fail e) :=
  fun _ _ hcopies => .fail e hcopies

theorem bind (hm : Repeats σ σ' Q m m')
    (hf : ∀ a a', Q a a' → Repeats σ σ' R (f a) (f' a')) :
    Repeats σ σ' R (m >>= f) (m' >>= f') := by
  intro τ τ' hcopies
  have hends := hm τ τ' hcopies
  rw [bind_apply, bind_apply]
  generalize m τ = o, m' τ' = o' at hends
  cases hends with
  | done hcopies ha => exact hf _ _ ha _ _ hcopies
  | fail e hcopies => exact .fail e hcopies

theorem ofExcept {x x' : Except RuntimeError Value}
    (h : x' = x.map (Value.renamed (.past σ σ'))) :
    Repeats σ σ' (Value.Counterpart σ σ') (ofExcept x) (ofExcept x') := by
  subst h
  cases x with
  | ok v => exact .pure rfl
  | error e => exact .fail e

theorem lookup {held : List Value} (hσ : σ.Complete held) (hσ' : σ.Extends σ')
    (scope : ScopeId) (x : String) :
    Repeats σ σ' (Value.Counterpart σ σ') (lookup scope x)
      (lookup scope x) := by
  intro τ τ' hcopies
  have hscopes : τ.scopes = σ.scopes := hcopies.left.scopes
  have hscopes' : τ'.scopes = σ.scopes := hcopies.right.scopes.trans hσ'.scopes
  unfold Action.lookup
  rw [hscopes, hscopes']
  unfold Scopes.get?
  cases hfirst : σ.scopes.firstBinding? x (σ.scopes.chain scope) with
  | none => exact .fail _ hcopies
  | some binding =>
    obtain ⟨-, hhere⟩ := Scopes.here?_of_firstBinding? hfirst
    have hwithin : binding.2.Within σ.Contains :=
      fun o ho => hσ.points (.variable (Bindings.mem_of_find? hhere) ho)
    exact .done hcopies (Value.renamed_past hwithin).symm

theorem index (hv : Value.Counterpart σ σ' v v')
    (hw : Value.Counterpart σ σ' w w') :
    Repeats σ σ' (Value.Counterpart σ σ') (index v w) (index v' w') := by
  intro τ τ' hcopies
  cases hv
  cases hw
  cases v with
  | ref o =>
    cases o with
    | table id => exact .done hcopies ((hcopies.tables id).get w)
    | _ => exact .fail _ hcopies
  | _ => exact .fail _ hcopies

theorem makeTable {t t' : Table} (ht : Table.Renamed (.past σ σ') t t') :
    Repeats σ σ' (Value.Counterpart σ σ') (makeTable t) (makeTable t') := by
  intro τ τ' hcopies
  refine .done (hcopies.addTable ht) ?_
  simp only [Value.Counterpart, Value.renamed, Ref.renamed, hcopies.size_tables]

theorem makeClosure (name : String) (c : Closure) :
    Repeats σ σ' (Value.Counterpart σ σ') (makeClosure name c)
      (makeClosure name c) := by
  intro τ τ' hcopies
  refine .done (hcopies.makeClosure c) ?_
  simp only [Value.Counterpart, Value.renamed, Ref.renamed,
    hcopies.size_closures]

theorem storeField {t t' : Table} (ht : Table.Renamed (.past σ σ') t t')
    (hv : Value.Counterpart σ σ' v v') (hw : Value.Counterpart σ σ' w w') :
    Repeats σ σ' (Table.Renamed (.past σ σ')) (Machine.storeField t v w)
      (Machine.storeField t' v' w') := by
  cases hv
  cases hw
  have hstore := ht.store v w
  cases hkey : Key.ofValue v with
  | ok k =>
    have hkey' := Key.ofValue_renamed_ok (r := .past σ σ') hkey
    rw [Table.store_of_ok hkey, Table.store_of_ok hkey'] at hstore
    simp only [Machine.storeField, Table.set, hkey, hkey']
    exact .pure hstore
  | error fault =>
    simp only [Machine.storeField, Table.set, hkey,
      Key.ofValue_renamed_error hkey]
    exact .fail _

end Action.Repeats

namespace Machine

/-- The machine evaluates every call-free expression that is no larger than this
in the same way in both stores. -/
def Repeats (m : Machine) (σ σ' : Store) (size : Nat) : Prop :=
  ∀ {e : Expr}, e.isCallFree = true → sizeOf e ≤ size → ∀ scope, Action.Repeats
      σ σ' (Value.Counterpart σ σ') (m.expr e scope) (m.expr e scope)

namespace Repeats

variable {m : Machine} {size : Nat} (hm : m.Repeats σ σ' size) (scope : ScopeId)
include hm

theorem memberKey (access : Access) {key : Expr} (hkey : key.isCallFree = true)
    (hsize : sizeOf key ≤ size) :
    Action.Repeats σ σ' (Value.Counterpart σ σ') (m.memberKey access key scope)
      (m.memberKey access key scope) := by
  unfold Machine.memberKey
  split
  · exact .pure rfl
  · exact .pure rfl
  · exact hm hkey hsize scope

theorem evalBinary (op : BinaryOp) {left right : Expr}
    (hleft : left.isCallFree = true) (hright : right.isCallFree = true)
    (hsize : sizeOf left + sizeOf right ≤ size) :
    Action.Repeats σ σ' (Value.Counterpart σ σ')
      (m.evalBinary scope op left right)
      (m.evalBinary scope op left right) := by
  have hl := hm hleft (by omega) scope
  have hr := hm hright (by omega) scope
  unfold Machine.evalBinary
  refine hl.bind fun a a' ha => ?_
  cases ha
  cases op with
  | or | and =>
    simp only [Value.truthy_renamed]
    split
    · first | exact .pure rfl | exact hr
    · first | exact .pure rfl | exact hr
  | _ =>
    refine hr.bind fun b b' hb => ?_
    cases hb
    exact .ofExcept (BinaryOp.apply_renamed _ a b)

theorem fields {fs : List Field} (hfs : fieldsCallFree fs = true)
    (hsize : sizeOf fs ≤ size) {t t' : Table}
    (ht : Table.Renamed (.past σ σ') t t') (position : Float) :
    Action.Repeats σ σ' (Table.Renamed (.past σ σ'))
      (m.fields scope t position fs) (m.fields scope t' position fs) := by
  induction fs generalizing t t' position with
  | nil => exact .pure ht
  | cons f fs ih =>
    simp only [fieldsCallFree, Bool.and_eq_true] at hfs
    simp only [List.cons.sizeOf_spec] at hsize
    have hrest : ∀ position {t t'}, Table.Renamed (.past σ σ') t t' →
        Action.Repeats σ σ' (Table.Renamed (.past σ σ'))
          (m.fields scope t position fs) (m.fields scope t' position fs) :=
      fun position _ _ ht => ih hfs.2 (by omega) ht position
    cases f with
    | named key value =>
      simp only [Field.named.sizeOf_spec] at hsize
      refine (hm (e := value) hfs.1 (by omega) scope).bind fun v v' hv => ?_
      exact (Action.Repeats.storeField ht rfl hv).bind fun _ _ => hrest position
    | keyed key value =>
      have hparts := (Bool.and_eq_true _ _).mp hfs.1
      simp only [Field.keyed.sizeOf_spec] at hsize
      refine (hm hparts.1 (by omega) scope).bind fun k k' hk => ?_
      refine (hm hparts.2 (by omega) scope).bind fun v v' hv => ?_
      exact (Action.Repeats.storeField ht hk hv).bind fun _ _ => hrest position
    | item value =>
      simp only [Field.item.sizeOf_spec] at hsize
      refine (hm (e := value) hfs.1 (by omega) scope).bind fun v v' hv => ?_
      exact (Action.Repeats.storeField ht rfl hv).bind fun _ _ =>
        hrest (position + 1.0)

variable {held : List Value} (hσ : σ.Complete held) (hσ' : σ.Extends σ')
include hσ hσ'

theorem evalExpr {e : Expr} (he : e.isCallFree = true)
    (hsize : sizeOf e ≤ size + 1) :
    Action.Repeats σ σ' (Value.Counterpart σ σ') (m.evalExpr e scope)
      (m.evalExpr e scope) := by
  cases e with
  | name x => exact .lookup hσ hσ' scope x
  | nil | bool | number | string => exact .pure rfl
  | unary op operand =>
    simp only [Expr.unary.sizeOf_spec] at hsize
    refine (hm (e := operand) he (by omega) scope).bind fun v v' hv => ?_
    cases hv
    exact .ofExcept (UnaryOp.apply_renamed op v)
  | binary op left right =>
    have hparts := (Bool.and_eq_true _ _).mp he
    simp only [Expr.binary.sizeOf_spec] at hsize
    exact hm.evalBinary scope op hparts.1 hparts.2 (by omega)
  | call | assign => cases he
  | member object access key =>
    have hparts := (Bool.and_eq_true _ _).mp he
    simp only [Expr.member.sizeOf_spec] at hsize
    cases access with
    | colon => exact .fail _
    | dot | bracket =>
      refine (hm hparts.1 (by omega) scope).bind fun o o' ho => ?_
      refine (hm.memberKey scope _ hparts.2 (by omega)).bind fun k k' hk => ?_
      exact .index ho hk
  | table fs =>
    simp only [Expr.table.sizeOf_spec] at hsize
    exact (hm.fields scope he (by omega) .empty 1.0).bind fun _ _ => .makeTable
  | function params body => exact .makeClosure _ _

end Repeats

theorem repeats_ofFuel (host : Host) (limit : Nat) {held : List Value}
    (hσ : σ.Complete held) (hσ' : σ.Extends σ') (fuel : Nat) :
    (ofFuel host limit fuel).Repeats σ σ' fuel := by
  -- the parts of an expression are smaller than it is, so the fuel lasts as
  -- long as the size
  induction fuel with
  | zero =>
    intro e _ hsize
    cases e <;> simp at hsize
  | succ n ih => exact fun he hsize scope => ih.evalExpr scope hσ hσ' he hsize

/-- An expression that neither calls nor assigns outside the bodies of its
functions ends in every complete store, such as sessions and runs lead to,
and leaves it as it was but for new tables and functions. Evaluated again,
it fails with the same error, or its value differs in nothing but the
numbers of these. -/
theorem callFree_pure (e : Expr) (he : e.isCallFree = true) :
    ∃ n, ∀ (host : Host) (limit fuel : Nat) (scope : ScopeId) (σ : Store)
        (held : List Value), n ≤ fuel → σ.Complete held →
        ∃ τ, ((ofFuel host limit fuel).expr e scope σ).store? = some τ ∧
          σ.Extends τ ∧
          Outcome.Repeats σ τ (Value.Counterpart σ τ)
            ((ofFuel host limit fuel).expr e scope σ)
            ((ofFuel host limit fuel).expr e scope τ) := by
  refine ⟨sizeOf e, fun host limit fuel scope σ held hfuel hσ => ?_⟩
  have hrun : ∀ {τ}, σ.Extends τ → Outcome.Repeats σ τ (Value.Counterpart σ τ)
        ((ofFuel host limit fuel).expr e scope σ)
        ((ofFuel host limit fuel).expr e scope τ) :=
    fun hτ =>
      repeats_ofFuel host limit hσ hτ fuel he hfuel scope σ _ (.start hσ hτ)
  obtain ⟨τ, hτ, hextends⟩ :
      ∃ τ, ((ofFuel host limit fuel).expr e scope σ).store? = some τ ∧
        σ.Extends τ := by
    have hfirst := hrun (.refl σ)
    generalize (ofFuel host limit fuel).expr e scope σ = o at hfirst
    cases hfirst with
    | done h _ | fail _ h => exact ⟨_, rfl, h.left⟩
  exact ⟨τ, hτ, hextends, hrun hextends⟩

/-- A table under whose keys there are a function, a function of the host and,
under a table, `true`. -/
theorem callFree_pure_table :
    let s := Session.start 200 none
    let e : Expr := .table [.item (.function [] []),
        .named "print" (.name "print"), .keyed (.table []) (.bool true)]
    e.isCallFree = true ∧ s.store.Complete [] ∧ ∃ n τ,
        ((ofFuel s.host 200 n).expr e Scopes.rootId s.store).store? = some τ ∧
          s.store.Extends τ ∧
        Outcome.Repeats s.store τ (Value.Counterpart s.store τ)
          ((ofFuel s.host 200 n).expr e Scopes.rootId s.store)
          ((ofFuel s.host 200 n).expr e Scopes.rootId τ) := by
  intro s e
  have he : e.isCallFree = true := by decide
  have hσ : s.store.Complete [] := (Session.Complete.start 200 none).store
  obtain ⟨n, hn⟩ := callFree_pure e he
  exact ⟨he, hσ, n, hn s.host 200 n Scopes.rootId s.store [] (Nat.le_refl n) hσ⟩

end Machine

end LuaCore
