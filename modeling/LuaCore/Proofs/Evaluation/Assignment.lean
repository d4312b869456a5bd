import LuaCore.Proofs.Scope.History
import LuaCore.Proofs.Table.Coherent
import LuaCore.Evaluation.Statement

namespace LuaCore

open LuaCore.Action

theorem Action.bind_eq_done_iff {α β : Type} {m : Action α} {f : α → Action β}
    {b : β} {σ υ : Store} :
    (m >>= f) σ = .done b υ ↔ ∃ a τ, m σ = .done a τ ∧ f a τ = .done b υ := by
  rw [bind_apply]
  constructor
  · intro h
    cases hm : m σ with
    | done a τ => exact ⟨a, τ, rfl, by rwa [hm] at h⟩
    | fail e τ => simp [hm] at h
    | outOfFuel => simp [hm] at h
  · rintro ⟨a, τ, hm, hf⟩
    rw [hm]
    exact hf

theorem Action.pure_eq_done_iff {α : Type} {a b : α} {σ τ : Store} :
    (pure a : Action α) σ = .done b τ ↔ b = a ∧ τ = σ := by
  rw [pure_apply, Outcome.done.injEq, eq_comm, @eq_comm _ σ]

inductive Place
  | name (x : String)
  | entry (table key : Value)

def Place.put (scope : ScopeId) (v : Value) : Place → Action Unit
  | name x => Action.assign scope x v
  | entry table key => setIndex table key v

/-- A value for each target: there are no more values than targets, and `nil`
stands for those that lack. -/
def fitted (n : Nat) (vs : List Value) : List Value :=
  (List.range n).map fun i => vs.getD i .nil

theorem fitted_succ (n : Nat) (vs : List Value) :
    fitted (n + 1) vs = vs.getD 0 .nil :: fitted n vs.tail := by
  rw [fitted, fitted, List.range_succ_eq_map, List.map_cons, List.map_map]
  congr 2
  funext i
  cases vs <;> rfl

namespace Machine

section

variable (m : Machine) (scope : ScopeId)

/-- Expressions are evaluated one after the other, each of them once. -/
inductive Evaluates : List Expr → Store → List Value → Store → Prop
  | nil (σ : Store) : Evaluates [] σ [] σ
  | cons {e : Expr} {es : List Expr} {v : Value} {vs : List Value}
      {σ τ υ : Store} (he : m.expr e scope σ = .done v τ)
      (hes : Evaluates es τ vs υ) :
      Evaluates (e :: es) σ (v :: vs) υ

/-- The place that a target is: a variable, or the entry of a table, of which
the table is computed first. -/
inductive Finds : Expr → Store → Place → Store → Prop
  | name (x : String) (σ : Store) : Finds (.name x) σ (.name x) σ
  | entry {object key : Expr} {access : Access} {t k : Value} {σ τ υ : Store}
      (haccess : access ≠ .colon) (htable : m.expr object scope σ = .done t τ)
      (hkey : m.memberKey access key scope τ = .done k υ) :
      Finds (.member object access key) σ (.entry t k) υ

/-- Each place is found and filled before the next one is found. -/
inductive FillsInTurn : List Expr → List Value → Store → Store → Prop
  | nil (σ : Store) : FillsInTurn [] [] σ σ
  | cons {target : Expr} {targets : List Expr} {p : Place} {v : Value}
      {vs : List Value} {σ τ υ ω : Store} (hfinds : m.Finds scope target σ p τ)
      (hput : p.put scope v τ = .done () υ)
      (hrest : FillsInTurn targets vs υ ω) :
      FillsInTurn (target :: targets) (v :: vs) σ ω

inductive FindsAll : List Expr → Store → List Place → Store → Prop
  | nil (σ : Store) : FindsAll [] σ [] σ
  | cons {target : Expr} {targets : List Expr} {p : Place} {ps : List Place}
      {σ τ υ : Store} (hfinds : m.Finds scope target σ p τ)
      (hrest : FindsAll targets τ ps υ) :
      FindsAll (target :: targets) σ (p :: ps) υ

inductive FillsAll : List Place → List Value → Store → Store → Prop
  | nil (σ : Store) : FillsAll [] [] σ σ
  | cons {p : Place} {ps : List Place} {v : Value} {vs : List Value}
      {σ τ υ : Store} (hput : p.put scope v σ = .done () τ)
      (hrest : FillsAll ps vs τ υ) :
      FillsAll (p :: ps) (v :: vs) σ υ

/-- All values are computed and all places are found, in whichever order, before
any place is filled. -/
def AssignsAtOnce (targets values : List Expr) (σ τ : Store) : Prop :=
  ∃ vs ps ρ υ,
    (m.Evaluates scope values σ vs ρ ∧ m.FindsAll scope targets ρ ps υ ∨
      m.FindsAll scope targets σ ps ρ ∧ m.Evaluates scope values ρ vs υ) ∧
    FillsAll scope ps (fitted targets.length vs) υ τ

end

variable {m : Machine} {scope : ScopeId} {σ τ υ : Store}

theorem exprs_eq_done_iff {es : List Expr} {vs : List Value} :
    m.exprs scope es σ = .done vs τ ↔ m.Evaluates scope es σ vs τ := by
  induction es generalizing σ vs τ with
  | nil =>
    rw [exprs, pure_eq_done_iff]
    constructor
    · rintro ⟨rfl, rfl⟩
      exact .nil _
    · intro h
      cases h
      exact ⟨rfl, rfl⟩
  | cons e es ih =>
    simp only [exprs, bind_eq_done_iff, pure_eq_done_iff, ih]
    constructor
    · rintro ⟨v, _, he, vs, _, hes, rfl, rfl⟩
      exact .cons he hes
    · intro h
      cases h with
      | cons he hes => exact ⟨_, _, he, _, _, hes, rfl, rfl⟩

theorem store_eq_done_iff {target : Expr} {v : Value} {u : Unit} :
    m.store scope target v σ = .done u υ ↔
      ∃ p τ, m.Finds scope target σ p τ ∧ p.put scope v τ = .done () υ := by
  constructor
  · intro h
    unfold store at h
    split at h
    · exact ⟨_, _, .name _ σ, h⟩
    · cases h
    · next object access key hcolon =>
      obtain ⟨t, τ, htable, h⟩ := bind_eq_done_iff.mp h
      obtain ⟨k, τ', hkey, h⟩ := bind_eq_done_iff.mp h
      have haccess : access ≠ .colon := by
        rintro rfl
        exact hcolon rfl
      exact ⟨_, _, .entry haccess htable hkey, h⟩
    · cases h
  · rintro ⟨p, τ, hfinds, hput⟩
    cases hfinds with
    | name x => exact hput
    | @entry object key access t k _ τ' _ haccess htable hkey =>
      cases access with
      | colon => exact absurd rfl haccess
      | _ =>
        exact bind_eq_done_iff.mpr
          ⟨t, τ', htable, bind_eq_done_iff.mpr ⟨k, τ, hkey, hput⟩⟩

theorem storeAll_eq_done_iff {targets : List Expr} {vs : List Value}
    {u : Unit} :
    m.storeAll scope targets vs σ = .done u τ ↔
      m.FillsInTurn scope targets (fitted targets.length vs) σ τ := by
  induction targets generalizing σ vs with
  | nil =>
    rw [storeAll, pure_eq_done_iff]
    constructor
    · rintro ⟨-, rfl⟩
      exact .nil _
    · intro h
      cases h
      exact ⟨rfl, rfl⟩
  | cons target targets ih =>
    have step : ∀ (v : Value) (rest : List Value),
        (m.store scope target v >>= fun _ => m.storeAll scope targets rest) σ =
          .done u τ ↔
          m.FillsInTurn scope (target :: targets)
            (v :: fitted targets.length rest) σ τ := by
      intro v rest
      simp only [bind_eq_done_iff, store_eq_done_iff, ih]
      constructor
      · rintro ⟨_, _, ⟨p, _, hfinds, hput⟩, hrest⟩
        exact .cons hfinds hput hrest
      · intro h
        cases h with
        | cons hfinds hput hrest => exact ⟨(), _, ⟨_, _, hfinds, hput⟩, hrest⟩
    rw [List.length_cons, fitted_succ]
    cases vs with
    | nil => exact step .nil []
    | cons v vs => exact step v vs

theorem evalExpr_assign_eq_done_iff {targets values : List Expr} {v : Value} :
    m.evalExpr (.assign targets values) scope σ = .done v τ ↔
      v = .nil ∧ ∃ vs υ, m.Evaluates scope values σ vs υ ∧
        m.FillsInTurn scope targets (fitted targets.length vs) υ τ := by
  simp only [evalExpr, bind_eq_done_iff, pure_eq_done_iff, exprs_eq_done_iff,
    storeAll_eq_done_iff]
  constructor
  · rintro ⟨vs, υ, hvalues, _, _, hfills, rfl, rfl⟩
    exact ⟨rfl, vs, υ, hvalues, hfills⟩
  · rintro ⟨rfl, vs, υ, hvalues, hfills⟩
    exact ⟨vs, υ, hvalues, (), _, hfills, rfl, rfl⟩

/-! Where an evaluation leads is determined by where it starts. -/

theorem Evaluates.unique {es : List Expr} {vs vs' : List Value}
    (h : m.Evaluates scope es σ vs τ) (h' : m.Evaluates scope es σ vs' υ) :
    vs = vs' ∧ τ = υ := by
  have heq := (exprs_eq_done_iff.mpr h).symm.trans (exprs_eq_done_iff.mpr h')
  cases heq
  exact ⟨rfl, rfl⟩

theorem Finds.unique {target : Expr} {p p' : Place}
    (h : m.Finds scope target σ p τ) (h' : m.Finds scope target σ p' υ) :
    p = p' ∧ τ = υ := by
  cases h with
  | name x =>
    cases h'
    exact ⟨rfl, rfl⟩
  | entry _ htable hkey =>
    cases h' with
    | entry _ htable' hkey' =>
      cases htable.symm.trans htable'
      cases hkey.symm.trans hkey'
      exact ⟨rfl, rfl⟩

theorem FindsAll.unique {targets : List Expr} {ps ps' : List Place}
    (h : m.FindsAll scope targets σ ps τ)
    (h' : m.FindsAll scope targets σ ps' υ) :
    ps = ps' ∧ τ = υ := by
  induction h generalizing ps' υ with
  | nil σ =>
    cases h'
    exact ⟨rfl, rfl⟩
  | cons hfinds _ ih =>
    cases h' with
    | cons hfinds' hrest' =>
      obtain ⟨rfl, rfl⟩ := hfinds.unique hfinds'
      obtain ⟨rfl, rfl⟩ := ih hrest'
      exact ⟨rfl, rfl⟩

theorem FillsAll.unique {ps : List Place} {vs : List Value}
    (h : FillsAll scope ps vs σ τ) (h' : FillsAll scope ps vs σ υ) :
    τ = υ := by
  induction h with
  | nil σ =>
    cases h'
    rfl
  | cons hput _ ih =>
    cases h' with
    | cons hput' hrest' =>
      cases hput.symm.trans hput'
      exact ih hrest'

end Machine

/-! Actions that no difference between two stores matters to. -/

def Action.Steady {α : Type} (σ τ : Store) (m : Action α) : Prop :=
  ∀ a υ, m σ = .done a υ → υ = σ ∧ m τ = .done a τ

namespace Action.Steady

variable {α β : Type} {σ τ : Store} {m : Action α} {f : α → Action β}

theorem pure (a : α) : Steady σ τ (pure a) := by
  rintro b υ ⟨⟩
  exact ⟨rfl, rfl⟩

theorem ofExcept (r : Except RuntimeError α) : Steady σ τ (ofExcept r) := by
  cases r with
  | ok a => exact pure a
  | error e => exact nofun

theorem bind (hm : Steady σ τ m) (hf : ∀ a, Steady σ τ (f a)) :
    Steady σ τ (m >>= f) := by
  intro b υ h
  obtain ⟨a, ρ, ha, hb⟩ := bind_eq_done_iff.mp h
  obtain ⟨rfl, ha'⟩ := hm a ρ ha
  obtain ⟨rfl, hb'⟩ := hf a b υ hb
  exact ⟨rfl, bind_eq_done_iff.mpr ⟨a, τ, ha', hb'⟩⟩

theorem lookup {scope : ScopeId} {x : String}
    (h : τ.scopes.get? scope x = σ.scopes.get? scope x) :
    Steady σ τ (lookup scope x) := by
  intro v υ hrun
  unfold Action.lookup at hrun ⊢
  rw [h]
  cases hget : σ.scopes.get? scope x with
  | none => simp [hget] at hrun
  | some w =>
    rw [hget] at hrun
    cases hrun
    exact ⟨rfl, rfl⟩

end Action.Steady

/-! Targets whose places no store into an earlier one moves. -/

/-- Names, literals, and operators over them: no call, no table, no function and
no assignment. -/
def Expr.isPlain : Expr → Bool
  | .name _ | .nil | .bool _ | .number _ | .string _ => true
  | .unary _ operand => operand.isPlain
  | .binary _ left right => left.isPlain && right.isPlain
  | _ => false

def Expr.plainReads : Expr → List String
  | .name x => [x]
  | .unary _ operand => operand.plainReads
  | .binary _ left right => left.plainReads ++ right.plainReads
  | _ => []

def Expr.placeParts : Expr → List Expr
  | .member object .dot (.name _) => [object]
  | .member object _ key => [object, key]
  | _ => []

/-- Nothing that a store into the earlier target changes is read to find the
place of the later one. -/
def Expr.StandsApart (earlier later : Expr) : Prop :=
  ∀ e ∈ later.placeParts, e.isPlain = true ∧
    ∀ x, earlier = .name x → x ∉ e.plainReads

namespace Machine

variable {host : Host} {limit fuel : Nat} {scope : ScopeId} {σ τ υ : Store}

theorem steady_expr {e : Expr} (he : e.isPlain = true)
    (hreads : ∀ x ∈ e.plainReads, τ.scopes.get? scope x =
      σ.scopes.get? scope x) :
    Steady σ τ ((ofFuel host limit fuel).expr e scope) := by
  induction fuel generalizing e with
  | zero => exact nofun
  | succ fuel ih =>
    show Steady σ τ ((ofFuel host limit fuel).evalExpr e scope)
    cases e with
    | name x => exact .lookup (hreads x List.mem_cons_self)
    | unary op operand => exact .bind (ih he hreads) fun a => .ofExcept _
    | binary op left right =>
      rw [Expr.isPlain, Bool.and_eq_true] at he
      rw [Expr.plainReads, List.forall_mem_append] at hreads
      have hright := ih he.2 hreads.2
      apply Steady.bind (ih he.1 hreads.1)
      intro a
      cases op with
      | or =>
        dsimp only
        split
        · exact .pure a
        · exact hright
      | and =>
        dsimp only
        split
        · exact hright
        · exact .pure a
      | _ => exact .bind hright fun b => .ofExcept _
    | nil | bool b | number x | string text => exact .pure _
    | _ => cases he

theorem Finds.steady {target : Expr} {p : Place}
    (h : (ofFuel host limit fuel).Finds scope target σ p υ)
    (hparts : ∀ e ∈ target.placeParts,
      Steady σ τ ((ofFuel host limit fuel).expr e scope)) :
    υ = σ ∧ (ofFuel host limit fuel).Finds scope target τ p τ := by
  cases h with
  | name x => exact ⟨rfl, .name x τ⟩
  | @entry object key access t k _ ρ _ haccess htable hkey =>
    have hobject : Steady σ τ ((ofFuel host limit fuel).expr object scope) := by
      apply hparts
      unfold Expr.placeParts
      split <;> simp_all
    obtain ⟨rfl, htable'⟩ := hobject t ρ htable
    have hmember :
        Steady ρ τ ((ofFuel host limit fuel).memberKey access key scope) := by
      unfold memberKey
      split
      · exact .pure _
      · exact .pure _
      · next hdot _ =>
        apply hparts
        unfold Expr.placeParts
        split <;> simp_all
    obtain ⟨rfl, hkey'⟩ := hmember k υ hkey
    exact ⟨rfl, .entry haccess htable' hkey'⟩

theorem FindsAll.steady {targets : List Expr} {ps : List Place}
    (h : (ofFuel host limit fuel).FindsAll scope targets σ ps υ)
    (hparts : ∀ target ∈ targets, ∀ e ∈ target.placeParts,
      Steady σ τ ((ofFuel host limit fuel).expr e scope)) :
    υ = σ ∧ (ofFuel host limit fuel).FindsAll scope targets τ ps τ := by
  induction h with
  | nil σ => exact ⟨rfl, .nil τ⟩
  | cons hfinds hrest ih =>
    rw [List.forall_mem_cons] at hparts
    obtain ⟨rfl, hfinds'⟩ := hfinds.steady hparts.1
    obtain ⟨rfl, hrest'⟩ := ih hparts.2
    exact ⟨rfl, .cons hfinds' hrest'⟩

/-- A store into a place changes what no name means but that of the place. -/
theorem Finds.get?_put {m : Machine} {target : Expr} {p : Place} {v : Value}
    {x : String} (hfinds : m.Finds scope target σ p τ)
    (hput : p.put scope v τ = .done () υ) (hx : target ≠ .name x) :
    υ.scopes.get? scope x = τ.scopes.get? scope x := by
  cases hfinds with
  | name y =>
    have hput : Action.assign scope y v σ = .done () υ := hput
    unfold Action.assign at hput
    dsimp only at hput
    split at hput
    · next owner _ =>
      cases hput
      apply Classical.byContradiction
      intro hne
      exact hx (congrArg Expr.name (Scopes.get?_define_of_ne hne).1.symm)
    · cases hput
  | @entry object key access t k _ _ _ haccess htable hkey =>
    have hput : setIndex t k v τ = .done () υ := hput
    unfold setIndex at hput
    dsimp only at hput
    split at hput
    · split at hput <;> cases hput
      rfl
    · cases hput

/-- Places that no earlier store moves may as well be found before the
first store. -/
theorem FillsInTurn.at_once {targets : List Expr} {vs : List Value}
    (h : (ofFuel host limit fuel).FillsInTurn scope targets vs σ τ)
    (hapart : targets.Pairwise Expr.StandsApart) :
    ∃ ps υ, (ofFuel host limit fuel).FindsAll scope targets σ ps υ ∧
      FillsAll scope ps vs υ τ := by
  induction h with
  | nil σ => exact ⟨[], σ, .nil σ, .nil σ⟩
  | @cons target targets p v vs σ ρ υ ω hfinds hput hrest ih =>
    rw [List.pairwise_cons] at hapart
    obtain ⟨ps, υ', hall, hfills⟩ := ih hapart.2
    have hparts : ∀ later ∈ targets, ∀ e ∈ later.placeParts,
        Steady υ ρ ((ofFuel host limit fuel).expr e scope) := by
      intro later hlater e he
      obtain ⟨hplain, hreads⟩ := hapart.1 later hlater e he
      apply steady_expr hplain
      intro x hx
      exact (hfinds.get?_put hput fun hname => hreads x hname hx).symm
    obtain ⟨rfl, hall'⟩ := hall.steady hparts
    exact ⟨p :: ps, ρ, .cons hfinds hall', .cons hput hfills⟩

/-- An assignment computes all its values, in order and each of them once,
before it finds the place of a target; then each target in turn is found and
gets the value with its number, or `nil`. It does all at once if no place
depends on a target that comes before it. -/
theorem assign_in_turn {targets values : List Expr} {v : Value} :
    ((ofFuel host limit (fuel + 1)).expr (.assign targets values) scope σ =
        .done v τ ↔ v = .nil ∧
        ∃ vs υ, (ofFuel host limit fuel).Evaluates scope values σ vs υ ∧
          (ofFuel host limit fuel).FillsInTurn scope targets
            (fitted targets.length vs) υ τ) ∧
    (targets.Pairwise Expr.StandsApart →
      (ofFuel host limit (fuel + 1)).expr (.assign targets values) scope σ =
        .done v τ →
      (ofFuel host limit fuel).AssignsAtOnce scope targets values σ τ) := by
  have hruns :
      (ofFuel host limit (fuel + 1)).expr (.assign targets values) scope σ =
        .done v τ ↔ _ :=
    evalExpr_assign_eq_done_iff
  refine ⟨hruns, fun hapart h => ?_⟩
  obtain ⟨-, vs, υ, hvalues, hfills⟩ := hruns.mp h
  obtain ⟨ps, ρ, hall, hfillsAll⟩ := hfills.at_once hapart
  exact ⟨vs, ps, υ, ρ, .inl ⟨hvalues, hall⟩, hfillsAll⟩

/-- `a, b = b, a` exchanges two variables. -/
theorem assignsAtOnce_of_swap :
    let σ : Store :=
      ⟨⟨#[⟨[("a", .number 1.0), ("b", .number 2.0)], []⟩]⟩, #[], .empty none, 0⟩
    let targets : List Expr := [.name "a", .name "b"]
    let values : List Expr := [.name "b", .name "a"]
    ∃ τ, (ofFuel (fun _ => Native.idle) 200 2).expr
        (.assign targets values) 0 σ = .done .nil τ ∧
      targets.Pairwise Expr.StandsApart ∧
      (ofFuel (fun _ => Native.idle) 200 1).AssignsAtOnce 0 targets values σ τ ∧
      τ.scopes.get? 0 "a" = some (.number 2.0) ∧
        τ.scopes.get? 0 "b" = some (.number 1.0) := by
  intro σ targets values
  have hapart : targets.Pairwise Expr.StandsApart := by
    simp [targets, Expr.StandsApart, Expr.placeParts]
  let τ : Store := { σ with
      scopes := (σ.scopes.define 0 "a" (.number 2.0)).define 0 "b"
        (.number 1.0) }
  have hrun :
      (ofFuel (fun _ => Native.idle) 200 2).expr (.assign targets values) 0 σ =
        .done .nil τ := rfl
  exact ⟨τ, hrun, hapart, assign_in_turn.2 hapart hrun, rfl, rfl⟩

/-- In `i, t[i] = i + 1, 20` the entry of `t` is that of the new `i`. -/
theorem not_assignsAtOnce_of_index :
    let σ : Store :=
      ⟨⟨#[⟨[("i", .number 3.0), ("t", .ref (.table 0))], []⟩]⟩, #[],
        ⟨#[.empty], #[], ⟨"", none⟩⟩, 0⟩
    let targets : List Expr :=
      [.name "i", .member (.name "t") .bracket (.name "i")]
    let values : List Expr :=
      [.binary .add (.name "i") (.number 1.0), .number 20.0]
    ∃ τ, (ofFuel (fun _ => Native.idle) 200 3).expr
        (.assign targets values) 0 σ = .done .nil τ ∧
      ¬(ofFuel (fun _ => Native.idle) 200 2).AssignsAtOnce
        0 targets values σ τ := by
  intro σ targets values
  have hold : Key.ofValue (.number 3.0) = .ok (.integer 3) := rfl
  have hnew : Key.ofValue (.number (3.0 + 1.0)) = .ok (.integer 4) := rfl
  let m := ofFuel (fun _ => Native.idle) 200 2
  let σ₁ : Store :=
    { σ with scopes := σ.scopes.define 0 "i" (.number (3.0 + 1.0)) }
  have hi : m.expr (.name "i") 0 σ = .done (.number 3.0) σ := rfl
  have ht : m.expr (.name "t") 0 σ = .done (.ref (.table 0)) σ := rfl
  have hadd : m.expr (.binary .add (.name "i") (.number 1.0)) 0 σ =
      .done (.number (3.0 + 1.0)) σ := rfl
  have htwenty : m.expr (.number 20.0) 0 σ = .done (.number 20.0) σ := rfl
  have hput : (Place.name "i").put 0 (.number (3.0 + 1.0)) σ = .done () σ₁ :=
    rfl
  let stored (k : Key) (key : Value) : Store :=
    { σ₁ with heap := σ.heap.putEntry 0 k key (.number 20.0) }
  have hentry : ∀ {k : Key} {key : Value}, Key.ofValue key = .ok k →
      (Place.entry (.ref (.table 0)) key).put 0 (.number 20.0) σ₁ =
        .done () (stored k key) := by
    intro k key hkey
    simp only [Place.put, setIndex, hkey]
    rfl
  have hvalues : m.Evaluates 0 values σ [.number (3.0 + 1.0), .number 20.0] σ :=
    .cons hadd (.cons htwenty (.nil σ))
  have hplaces : m.FindsAll 0 targets σ
      [.name "i", .entry (.ref (.table 0)) (.number 3.0)] σ :=
    .cons (.name "i" σ) (.cons (.entry (by decide) ht hi) (.nil σ))
  refine ⟨stored (.integer 4) (.number (3.0 + 1.0)), ?_, ?_⟩
  · apply evalExpr_assign_eq_done_iff.mpr
    refine ⟨rfl, _, σ, hvalues, ?_⟩
    exact .cons (.name "i" σ) hput
      (.cons (.entry (by decide) rfl rfl) (hentry hnew) (.nil _))
  · rintro ⟨vs, ps, ρ, υ, horder, hfills⟩
    have hboth : [.number (3.0 + 1.0), .number 20.0] = vs ∧
        [.name "i", .entry (.ref (.table 0)) (.number 3.0)] = ps ∧ σ = υ := by
      obtain ⟨hvs, hps⟩ | ⟨hps, hvs⟩ := horder
      · obtain ⟨rfl, rfl⟩ := hvalues.unique hvs
        exact ⟨rfl, hplaces.unique hps⟩
      · obtain ⟨rfl, rfl⟩ := hplaces.unique hps
        exact ⟨(hvalues.unique hvs).1, rfl, (hvalues.unique hvs).2⟩
    obtain ⟨rfl, rfl, rfl⟩ := hboth
    have hstored := hfills.unique (.cons hput (.cons (hentry hold) (.nil _)))
    have hfind :=
      congrArg (fun σ : Store => (σ.heap.table 0).find (.integer 3)) hstored
    have hleft :
        (Table.empty.put (.integer 4) (.number (3.0 + 1.0)) (.number 20.0)).find
            (.integer 3) = .nil := by
      rw [Table.find_put Table.empty_coherent hnew, if_neg (by decide)]
      simp [Table.find, Table.empty]
    have hright :
        (Table.empty.put (.integer 3) (.number 3.0) (.number 20.0)).find
            (.integer 3) = .number 20.0 := by
      rw [Table.find_put Table.empty_coherent hold, if_pos rfl]
    cases hleft.symm.trans (hfind.trans hright)

end Machine

end LuaCore
