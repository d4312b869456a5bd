import LuaCore.Proofs.Simulation.Basic
import LuaCore.Proofs.Tree.Alike
import LuaCore.Proofs.Table.Entry
import LuaCore.Proofs.Evaluation.Construct
import LuaCore.Proofs.Scope.Safety

namespace LuaCore

open LuaCore.Action

namespace Simulation

variable (S : Simulation)

/-- Functions with the same parameters and bodies alike, made in scopes that
see the same. -/
def LikeClosure (w : S.World) (c c' : Closure) : Prop :=
  c'.params = c.params ∧ BlockAlike S.blocks c.body c'.body ∧
    S.sees w c.scope c'.scope

def SameRow (w : S.World) (row row' : Option (List Value)) : Prop :=
  row' = row ∧ ∀ vs, row = some vs → ∀ v ∈ vs, S.good w v

/-- What the primitive actions of a program ask of a simulation. -/
structure Upheld (host : Host) : Prop where
  depth_eq : ∀ {w σ σ'}, S.rel w σ σ' → σ'.depth = σ.depth
  setDepth : ∀ {w σ σ'} n, S.rel w σ σ' → S.rel w (setDepth n σ) (setDepth n σ')
  plain : ∀ {w v}, (∀ r, v ≠ .ref r) → S.good w v
  lookup : ∀ {w i j} x, S.sees w i j →
    S.Follows w (lookup i x) (lookup j x) S.SameValue
  assign : ∀ {w i j v} x, S.sees w i j → S.good w v →
    S.Follows w (assign i x v) (assign j x v) S.Whatever
  openScope : ∀ {w i j vs} names, S.sees w i j → (∀ v ∈ vs, S.good w v) →
    S.Follows w (openScope i names vs) (openScope j names vs) S.owns
  define : ∀ {w i j vs} names, S.owns w i j → (∀ v ∈ vs, S.good w v) →
    S.Follows w (define i names vs) (define j names vs) S.Whatever
  makeClosure : ∀ {w c c'} name, S.LikeClosure w c c' →
    S.Follows w (makeClosure name c) (makeClosure name c') S.SameValue
  closure? : ∀ {w id name}, S.good w (.ref (.closure id name)) →
    S.Follows w (closure? id) (closure? id) fun w =>
      Option.Rel (S.LikeClosure w)
  makeTable : ∀ {w t}, S.GoodTable w t →
    S.Follows w (makeTable t) (makeTable t) S.SameValue
  index : ∀ {w o} k, S.good w o →
    S.Follows w (index o k) (index o k) S.SameValue
  setIndex : ∀ {w o k v}, S.good w o → S.good w k → S.good w v →
    S.Follows w (setIndex o k v) (setIndex o k v) S.Whatever
  advance : ∀ {w id}, S.good w (.ref (.iterator id)) →
    S.Follows w (advance id) (advance id) S.SameRow
  native : ∀ {w args} id, (∀ v ∈ args, S.good w v) →
    S.Follows w (native (host id) args) (native (host id) args) S.SameValue
  /-- An empty scope may be opened in one of the runs only. -/
  enter : ∀ {w i j}, S.blocks → S.sees w i j →
    S.Follows w (Pure.pure i) (Action.openScope j [] []) S.sees
  enterLeft : ∀ {w i j}, S.blocks → S.sees w i j →
    S.Follows w (Action.openScope i [] []) (Pure.pure j) S.sees

/-- Two machines that run code alike as parts. -/
structure Parts (m m' : Machine) : Prop where
  host : m'.host = m.host
  limit : m'.limit = m.limit
  rounds : m.rounds ≤ m'.rounds
  expr : ∀ {w i j e e'}, e.Alike S.blocks e' → S.sees w i j →
    S.Follows w (m.expr e i) (m'.expr e' j) S.SameValue
  block : ∀ {w i j b b'}, BlockAlike S.blocks b b' → S.owns w i j →
    S.Follows w (m.block b i) (m'.block b' j) S.SameFlow

variable {S} {m m' : Machine} {host : Host} {w w' : S.World} {i j : ScopeId}

/-- Without blocks of their own, functions alike are one function if they were
made in one scope. -/
theorem LikeClosure.eq {c c' : Closure} (h : S.LikeClosure w c c')
    (hblocks : ¬ S.blocks) (hscope : c'.scope = c.scope) :
    c' = c := by
  obtain ⟨hparams, hbody, -⟩ := h
  cases c
  cases c'
  exact congr (congr (congrArg Closure.mk hparams) (hbody.eq hblocks)) hscope

theorem follows_ofExcept {r : Except RuntimeError Value}
    (h : ∀ v, r = .ok v → S.good w v) :
    S.Follows w (ofExcept r) (ofExcept r) S.SameValue := by
  cases r with
  | ok v => exact follows_pure ⟨rfl, h v rfl⟩
  | error e => exact follows_fail

theorem follows_nested {α β : Type} {a : Action α} {a' : Action β}
    {Q : S.World → α → β → Prop} (U : S.Upheld host) (h : S.Follows w a a' Q) :
    S.Follows w (nested a) (nested a') Q := by
  intro σ σ' hrel
  have hdepth := U.depth_eq hrel
  have hends := h _ _ (U.setDepth (σ.depth + 1) hrel)
  have hshift : ∀ {w τ τ'}, S.rel w τ τ' →
      S.rel w (setDepth (τ.depth - 1) τ) (setDepth (τ'.depth - 1) τ') := by
    intro w τ τ' hrel
    rw [U.depth_eq hrel]
    exact U.setDepth _ hrel
  show S.Ends w Q (nested a σ) (nested a' σ')
  rw [Policy.nested_apply, Policy.nested_apply]
  rw [hdepth]
  cases hrun : a (setDepth (σ.depth + 1) σ) with
  | done v τ =>
    cases hrun' : a' (setDepth (σ.depth + 1) σ') with
    | done v' τ' =>
      rw [hrun, hrun'] at hends
      obtain ⟨w', hle, hrel', hQ⟩ := hends
      exact ⟨w', hle, hshift hrel', hQ⟩
    | fail e' τ' =>
      rw [hrun, hrun'] at hends
      exact hends.elim
    | outOfFuel =>
      rw [hrun, hrun'] at hends
      exact hends.elim
  | fail e τ =>
    cases hrun' : a' (setDepth (σ.depth + 1) σ') with
    | done v' τ' =>
      rw [hrun, hrun'] at hends
      exact hends.elim
    | fail e' τ' =>
      rw [hrun, hrun'] at hends
      obtain ⟨heq, w', hle, hrel'⟩ := hends
      exact ⟨heq, w', hle, hshift hrel'⟩
    | outOfFuel =>
      rw [hrun, hrun'] at hends
      exact hends.elim
  | outOfFuel => trivial

theorem follows_depth (U : S.Upheld host) :
    S.Follows w depth depth fun _ n n' => n' = n :=
  fun _ _ hrel => ⟨w, S.le_refl w, hrel, U.depth_eq hrel⟩

namespace Parts

theorem exprs (h : S.Parts m m') {es es' : List Expr}
    (hes : ExprsAlike S.blocks es es') (hs : S.sees w i j) :
    S.Follows w (m.exprs i es) (m'.exprs j es') S.SameValues := by
  induction es generalizing w es' with
  | nil =>
    cases hes
    exact follows_pure ⟨rfl, nofun⟩
  | cons e es ih =>
    obtain _ | ⟨he, hes⟩ := hes
    refine follows_bind (h.expr he hs) ?_
    rintro w _ v hw ⟨rfl, hv⟩
    refine follows_bind (ih hes (S.sees_le hw hs)) ?_
    rintro w' _ vs hw' ⟨rfl, hvs⟩
    exact follows_pure ⟨rfl, List.forall_mem_cons.mpr ⟨S.good_le hw' hv, hvs⟩⟩

theorem memberKey (h : S.Parts m m') (U : S.Upheld host) (access : Access)
    {k k' : Expr} (hk : k.Alike S.blocks k') (hs : S.sees w i j) :
    S.Follows w (m.memberKey access k i)
      (m'.memberKey access k' j) S.SameValue := by
  have hread : S.Follows w (m.expr k i) (m'.expr k' j) S.SameValue :=
    h.expr hk hs
  cases access with
  | bracket => exact hread
  | dot | colon =>
    cases hk with
    | name x => exact follows_pure ⟨rfl, U.plain (by simp)⟩
    | _ => exact hread

theorem store (h : S.Parts m m') (U : S.Upheld host) {t t' : Expr}
    (ht : t.Alike S.blocks t') (hs : S.sees w i j) {v : Value}
    (hv : S.good w v) :
    S.Follows w (m.store i t v) (m'.store j t' v) S.Whatever := by
  cases ht with
  | name x => exact U.assign x hs hv
  | @member access e e' k k' he hk =>
    have hstore : S.Follows w
        (do let t ← m.expr e i; let k ← m.memberKey access k i; setIndex t k v)
        (do
          let t ← m'.expr e' j
          let k ← m'.memberKey access k' j
          setIndex t k v) S.Whatever := by
      refine follows_bind (h.expr he hs) ?_
      rintro w _ o hw ⟨rfl, ho⟩
      refine follows_bind (h.memberKey U access hk (S.sees_le hw hs)) ?_
      rintro w' _ k hw' ⟨rfl, hk⟩
      exact U.setIndex (S.good_le hw' ho) hk (S.good_le (S.le_trans hw hw') hv)
    cases access with
    | colon => exact follows_fail
    | dot | bracket => exact hstore
  | _ => exact follows_fail

theorem storeAll (h : S.Parts m m') (U : S.Upheld host) {ts ts' : List Expr}
    (hts : ExprsAlike S.blocks ts ts') (hs : S.sees w i j) {vs : List Value}
    (hvs : ∀ v ∈ vs, S.good w v) :
    S.Follows w (m.storeAll i ts vs) (m'.storeAll j ts' vs) S.Whatever := by
  induction ts generalizing w ts' vs with
  | nil =>
    cases hts
    cases vs <;> exact follows_pure trivial
  | cons t ts ih =>
    obtain _ | ⟨ht, hts⟩ := hts
    cases vs with
    | nil =>
      refine follows_bind (h.store U ht hs (U.plain (by simp)))
        fun w' _ _ hw' _ => ?_
      exact ih hts (S.sees_le hw' hs) nofun
    | cons v vs =>
      have hvs := List.forall_mem_cons.mp hvs
      refine follows_bind (h.store U ht hs hvs.1) fun w' _ _ hw' _ => ?_
      exact ih hts (S.sees_le hw' hs) fun v hv => S.good_le hw' (hvs.2 v hv)

theorem storeField {t : Table} (ht : S.GoodTable w t) {key value : Value}
    (hkey : S.good w key) (hvalue : S.good w value) :
    S.Follows w (Machine.storeField t key value) (Machine.storeField t key
        value) fun w' u u' => u' = u ∧ S.GoodTable w' u := by
  unfold Machine.storeField Table.set
  cases hk : Key.ofValue key with
  | error fault => exact follows_fail
  | ok k =>
    refine follows_pure ⟨rfl, Table.put_coherent ht.coherent hk, fun e he => ?_⟩
    obtain ⟨hfirst, hsecond⟩ := Table.mem_put he
    constructor
    · rcases hfirst with heq | ⟨e', he', heq⟩
      · exact heq ▸ hkey
      · exact heq ▸ (ht.entries e' he').1
    · rcases hsecond with heq | ⟨e', he', heq⟩
      · exact heq ▸ hvalue
      · exact heq ▸ (ht.entries e' he').2

theorem fields (h : S.Parts m m') (U : S.Upheld host) {fs fs' : List Field}
    (hfs : FieldsAlike S.blocks fs fs') (hs : S.sees w i j) {t : Table}
    (ht : S.GoodTable w t) (position : Float) :
    S.Follows w (m.fields i t position fs) (m'.fields j t position fs')
      fun w' u u' => u' = u ∧ S.GoodTable w' u := by
  induction fs generalizing w fs' t position with
  | nil =>
    cases hfs
    exact follows_pure ⟨rfl, ht⟩
  | cons f fs ih =>
    obtain _ | @⟨_, f', _, fs', hf, hfs⟩ := hfs
    -- what is common to the three kinds of fields: a value is there, and the
    -- field is stored
    have rest :
        ∀ {w' : S.World} {key value : Value} (position : Float), S.le w w' →
        S.good w' key → S.good w' value →
        S.Follows w'
          (do m.fields i (← Machine.storeField t key value) position fs)
          (do m'.fields j (← Machine.storeField t key value) position fs')
          fun w' u u' => u' = u ∧ S.GoodTable w' u := by
      intro w' key value position hw' hkey hvalue
      refine follows_bind (storeField (ht.le hw') hkey hvalue) ?_
      rintro w'' _ u hw'' ⟨rfl, hu⟩
      exact ih hfs (S.sees_le (S.le_trans hw' hw'') hs) hu position
    cases hf with
    | named key he =>
      refine follows_bind (h.expr he hs) ?_
      rintro w' _ v hw' ⟨rfl, hv⟩
      exact rest position hw' (U.plain (by simp)) hv
    | keyed hk he =>
      refine follows_bind (h.expr hk hs) ?_
      rintro w' _ key hw' ⟨rfl, hkey⟩
      refine follows_bind (h.expr he (S.sees_le hw' hs)) ?_
      rintro w'' _ v hw'' ⟨rfl, hv⟩
      exact rest position (S.le_trans hw' hw'') (S.good_le hw'' hkey) hv
    | item he =>
      refine follows_bind (h.expr he hs) ?_
      rintro w' _ v hw' ⟨rfl, hv⟩
      exact rest (position + 1.0) hw' (U.plain (by simp)) hv

theorem callClosure (h : S.Parts m m') (U : S.Upheld host) {c c' : Closure}
    (hc : S.LikeClosure w c c') {args : List Value}
    (hargs : ∀ v ∈ args, S.good w v) :
    S.Follows w (m.callClosure c args)
      (m'.callClosure c' args) S.SameValue := by
  obtain ⟨hparams, hbody, hscope⟩ := hc
  unfold Machine.callClosure
  rw [h.limit, hparams]
  refine follows_bind (follows_depth U) ?_
  rintro w' _ n hw' rfl
  split
  · exact follows_fail
  · refine follows_bind (U.openScope _ (S.sees_le hw' hscope) fun v hv =>
        S.good_le hw' (hargs v hv)) ?_
    intro w'' i j _ hij
    refine follows_bind (follows_nested U (h.block hbody hij)) ?_
    rintro w₃ _ flow _ ⟨rfl, hflow⟩
    cases flow with
    | normal => exact follows_pure ⟨rfl, U.plain (by simp)⟩
    | broke => exact follows_fail
    | returned v => exact follows_pure ⟨rfl, hflow v rfl⟩

theorem call (h : S.Parts m m') (U : S.Upheld m.host) {f : Value}
    (hf : S.good w f) {args : List Value} (hargs : ∀ v ∈ args, S.good w v) :
    S.Follows w (m.call f args) (m'.call f args) S.SameValue := by
  unfold Machine.call
  split
  · next id _ =>
    refine follows_bind (U.closure? hf) ?_
    intro w' c? c?' hw' hc
    cases hc with
    | some hc => exact h.callClosure U hc fun v hv => S.good_le hw' (hargs v hv)
    | none => exact follows_fail
  · next id _ =>
    rw [h.host]
    exact U.native id hargs
  · exact follows_fail

theorem callee (h : S.Parts m m') (U : S.Upheld host) {e e' : Expr}
    (he : e.Alike S.blocks e') (hs : S.sees w i j) :
    S.Follows w (m.callee i e) (m'.callee j e') fun w' f f' =>
      f' = f ∧ S.good w' f.1 ∧ ∀ v ∈ f.2, S.good w' v := by
  have hplain : S.Follows w (do return (← m.expr e i, []))
      (do return (← m'.expr e' j, [])) fun w' (f f' : Value × List Value) =>
      f' = f ∧ S.good w' f.1 ∧ ∀ v ∈ f.2, S.good w' v := by
    refine follows_bind (h.expr he hs) ?_
    rintro w' _ v _ ⟨rfl, hv⟩
    exact follows_pure ⟨rfl, hv, nofun⟩
  cases he with
  | member access ho hk =>
    cases access with
    | dot | bracket => exact hplain
    | colon =>
      refine follows_bind (h.expr ho hs) ?_
      rintro w' _ o hw' ⟨rfl, ho⟩
      refine follows_bind (h.memberKey U .colon hk (S.sees_le hw' hs)) ?_
      rintro w'' _ k hw'' ⟨rfl, -⟩
      refine follows_bind (U.index k (S.good_le hw'' ho)) ?_
      rintro w₃ _ f hw₃ ⟨rfl, hf⟩
      refine follows_pure ⟨rfl, hf, ?_⟩
      simpa using S.good_le (S.le_trans hw'' hw₃) ho
  | _ => exact hplain

theorem evalBinary (h : S.Parts m m') (U : S.Upheld host) (op : BinaryOp)
    {e e' f f' : Expr} (he : e.Alike S.blocks e') (hf : f.Alike S.blocks f')
    (hs : S.sees w i j) :
    S.Follows w (m.evalBinary i op e f)
      (m'.evalBinary j op e' f') S.SameValue := by
  refine follows_bind (h.expr he hs) ?_
  rintro w' _ a hw' ⟨rfl, ha⟩
  have hright := h.expr hf (S.sees_le hw' hs)
  have happly : S.Follows w' (do let b ← m.expr f i; ofExcept (op.apply a b))
      (do let b ← m'.expr f' j; ofExcept (op.apply a b)) S.SameValue := by
    refine follows_bind hright ?_
    rintro w'' _ b hw'' ⟨rfl, hb⟩
    refine follows_ofExcept fun v hv => ?_
    rcases BinaryOp.apply_ok hv with rfl | rfl | hplain
    · exact S.good_le hw'' ha
    · exact hb
    · exact U.plain hplain
  cases op with
  | or =>
    dsimp only
    split
    · exact follows_pure ⟨rfl, ha⟩
    · exact hright
  | and =>
    dsimp only
    split
    · exact hright
    · exact follows_pure ⟨rfl, ha⟩
  | _ => exact happly

theorem evalExpr (h : S.Parts m m') (U : S.Upheld m.host) {e e' : Expr}
    (he : e.Alike S.blocks e') (hs : S.sees w i j) :
    S.Follows w (m.evalExpr e i) (m'.evalExpr e' j) S.SameValue := by
  cases he with
  | name x => exact U.lookup x hs
  | nil | bool _ | number _ | string _ =>
    exact follows_pure ⟨rfl, U.plain (by simp)⟩
  | unary op he =>
    refine follows_bind (h.expr he hs) ?_
    rintro w' _ v _ ⟨rfl, -⟩
    exact follows_ofExcept fun v hv => U.plain (UnaryOp.apply_ok hv)
  | binary op he hf => exact h.evalBinary U op he hf hs
  | call hf hes =>
    refine follows_bind (h.callee U hf hs) ?_
    rintro w' _ f hw' ⟨rfl, hf, hfirst⟩
    refine follows_bind (h.exprs hes (S.sees_le hw' hs)) ?_
    rintro w'' _ others hw'' ⟨rfl, hothers⟩
    refine h.call U (S.good_le hw'' hf) fun v hv => ?_
    rcases List.mem_append.mp hv with hv | hv
    · exact S.good_le hw'' (hfirst v hv)
    · exact hothers v hv
  | @member access e e' k k' he hk =>
    have hread : S.Follows w
        (do let o ← m.expr e i; let k ← m.memberKey access k i; index o k)
        (do let o ← m'.expr e' j; let k ← m'.memberKey access k' j; index o k)
        S.SameValue := by
      refine follows_bind (h.expr he hs) ?_
      rintro w' _ o hw' ⟨rfl, ho⟩
      refine follows_bind (h.memberKey U access hk (S.sees_le hw' hs)) ?_
      rintro w'' _ k hw'' ⟨rfl, -⟩
      exact U.index k (S.good_le hw'' ho)
    cases access with
    | colon => exact follows_fail
    | dot | bracket => exact hread
  | assign hts hes =>
    refine follows_bind (h.exprs hes hs) ?_
    rintro w' _ vs hw' ⟨rfl, hvs⟩
    refine follows_bind (h.storeAll U hts (S.sees_le hw' hs) hvs)
      fun _ _ _ _ _ => ?_
    exact follows_pure ⟨rfl, U.plain (by simp)⟩
  | table hfs =>
    have hempty : S.GoodTable w .empty :=
      ⟨Table.empty_coherent, by simp [Table.empty]⟩
    refine follows_bind (h.fields U hfs hs hempty 1.0) ?_
    rintro w' _ t _ ⟨rfl, ht⟩
    exact U.makeTable ht
  | function params hb => exact U.makeClosure _ ⟨rfl, hb, hs⟩

theorem blockIn (h : S.Parts m m') (U : S.Upheld host) {b b' : Block}
    (hb : BlockAlike S.blocks b b') (hs : S.sees w i j) :
    S.Follows w (m.blockIn i b) (m'.blockIn j b') S.SameFlow :=
  follows_bind (U.openScope [] hs nofun) fun _ _ _ _ hij => h.block hb hij

theorem branch? (h : S.Parts m m') {cs cs' : List Clause}
    (hcs : ClausesAlike S.blocks cs cs') {d d' : Option Block}
    (hd : Option.Rel (BlockAlike S.blocks) d d') (hs : S.sees w i j) :
    S.Follows w (m.branch? i d cs) (m'.branch? j d' cs') fun _ =>
      Option.Rel (BlockAlike S.blocks) := by
  induction cs generalizing w cs' with
  | nil =>
    cases hcs
    exact follows_pure hd
  | cons c cs ih =>
    obtain _ | ⟨he, hb, hcs⟩ := hcs
    refine follows_bind (h.expr he hs) ?_
    rintro w' _ v hw' ⟨rfl, -⟩
    split
    · exact follows_pure (.some hb)
    · exact ih hcs (S.sees_le hw' hs)

theorem rangeNumber (h : S.Parts m m') (part : RangePart) {e e' : Expr}
    (he : e.Alike S.blocks e') (hs : S.sees w i j) :
    S.Follows w (m.rangeNumber i part e) (m'.rangeNumber j part e')
      fun _ x x' => x' = x := by
  refine follows_bind (h.expr he hs) ?_
  rintro w' _ v _ ⟨rfl, -⟩
  cases v with
  | number x => exact follows_pure rfl
  | _ => exact follows_fail

theorem afterBody (h : S.Parts m m') {α : Type} (state : α) {b b' : Block}
    (hb : BlockAlike S.blocks b b') (hij : S.owns w i j) :
    S.Follows w (do return Turn.afterBody state (← m.block b i))
      (do return Turn.afterBody state (← m'.block b' j)) S.SameTurn := by
  refine follows_bind (h.block hb hij) ?_
  rintro w' _ flow _ ⟨rfl, hflow⟩
  refine follows_pure ⟨rfl, fun v hv => hflow v ?_⟩
  cases flow <;> cases hv
  rfl

theorem rangeTurn (h : S.Parts m m') (U : S.Upheld host) (x : String)
    {b b' : Block} (hb : BlockAlike S.blocks b b') (hs : S.sees w i j)
    (stop step current : Float) :
    S.Follows w (m.rangeTurn i x stop step b current)
      (m'.rangeTurn j x stop step b' current) S.SameTurn := by
  unfold Machine.rangeTurn
  split
  · have hgood : ∀ v ∈ [Value.number current], S.good w v := by
      simpa using U.plain (by simp)
    exact follows_bind (U.openScope [x] hs hgood) fun _ _ _ _ hij =>
      h.afterBody _ hb hij
  · exact follows_pure ⟨rfl, nofun⟩

theorem callRow (h : S.Parts m m') (U : S.Upheld m.host) {source : Value}
    (hsource : S.good w source) :
    S.Follows w (do
        match ← m.call source [] with
        | .nil => return none
        | v => return some [v]) (do
        match ← m'.call source [] with
        | .nil => return none
        | v => return some [v]) S.SameRow := by
  refine follows_bind (h.call U hsource (by simp)) ?_
  rintro w' _ v _ ⟨rfl, hv⟩
  cases v with
  | nil => exact follows_pure ⟨rfl, by simp⟩
  | _ =>
    refine follows_pure ⟨rfl, ?_⟩
    rintro _ ⟨⟩
    simpa using hv

theorem nextRow? (h : S.Parts m m') (U : S.Upheld m.host) {source : Value}
    (hsource : S.good w source) :
    S.Follows w (m.nextRow? source) (m'.nextRow? source) S.SameRow := by
  unfold Machine.nextRow?
  split
  · exact U.advance hsource
  · exact h.callRow U hsource
  · exact h.callRow U hsource
  · exact follows_fail

theorem eachTurn (h : S.Parts m m') (U : S.Upheld m.host) (names : List String)
    {source : Value} (hsource : S.good w source) {b b' : Block}
    (hb : BlockAlike S.blocks b b') (hs : S.sees w i j) :
    S.Follows w (m.eachTurn i names source b)
      (m'.eachTurn j names source b') S.SameTurn := by
  refine follows_bind (h.nextRow? U hsource) ?_
  rintro w' _ row hw' ⟨rfl, hrow⟩
  cases row with
  | none => exact follows_pure ⟨rfl, nofun⟩
  | some row =>
    exact follows_bind (U.openScope names (S.sees_le hw' hs) (hrow row rfl))
      fun _ _ _ _ hij =>
      h.afterBody () hb hij

theorem whileTurn (h : S.Parts m m') (U : S.Upheld host) {e e' : Expr}
    (he : e.Alike S.blocks e') {b b' : Block} (hb : BlockAlike S.blocks b b')
    (hs : S.sees w i j) :
    S.Follows w (m.whileTurn i e b) (m'.whileTurn j e' b') S.SameTurn := by
  refine follows_bind (h.expr he hs) ?_
  rintro w' _ v hw' ⟨rfl, -⟩
  split
  · rw [Machine.blockIn, Machine.blockIn, bind_assoc, bind_assoc]
    exact follows_bind (U.openScope [] (S.sees_le hw' hs) nofun)
      fun _ _ _ _ hij =>
      h.afterBody () hb hij
  · exact follows_pure ⟨rfl, nofun⟩

theorem repeatTurn (h : S.Parts m m') (U : S.Upheld host) {b b' : Block}
    (hb : BlockAlike S.blocks b b') {e e' : Expr} (he : e.Alike S.blocks e')
    (hs : S.sees w i j) :
    S.Follows w (m.repeatTurn i b e) (m'.repeatTurn j b' e') S.SameTurn := by
  refine follows_bind (U.openScope [] hs nofun) fun w' i j _ hij => ?_
  refine follows_bind (h.block hb hij) ?_
  rintro w'' _ flow hw'' ⟨rfl, hflow⟩
  cases flow with
  | normal =>
    refine follows_bind (h.expr he (S.sees_of_owns (S.owns_le hw'' hij))) ?_
    rintro w₃ _ v _ ⟨rfl, -⟩
    split <;> exact follows_pure ⟨rfl, nofun⟩
  | broke => exact follows_pure ⟨rfl, nofun⟩
  | returned v =>
    refine follows_pure ⟨rfl, ?_⟩
    rintro _ ⟨⟩
    exact hflow v rfl

theorem storeFunction (h : S.Parts m m') (U : S.Upheld host) {t t' : Expr}
    (ht : t.Alike S.blocks t') (hs : S.sees w i j)
    (hown : functionNames (some t) ≠ [] → S.owns w i j) {f : Value}
    (hf : S.good w f) :
    S.Follows w (m.storeFunction i (some t) f)
      (m'.storeFunction j (some t') f) S.Whatever := by
  cases ht with
  | name x => exact U.define [x] (hown nofun) (by simpa using hf)
  | member access he hk =>
    refine follows_bind (h.expr he hs) ?_
    rintro w' _ o hw' ⟨rfl, ho⟩
    refine follows_bind (h.memberKey U access hk (S.sees_le hw' hs)) ?_
    rintro w'' _ k hw'' ⟨rfl, hk⟩
    exact U.setIndex (S.good_le hw'' ho) hk (S.good_le (S.le_trans hw' hw'') hf)
  | _ => exact follows_fail

theorem conditional (h : S.Parts m m') (U : S.Upheld host)
    {cs cs' : List Clause} (hcs : ClausesAlike S.blocks cs cs')
    {d d' : Option Block} (hd : Option.Rel (BlockAlike S.blocks) d d')
    (hs : S.sees w i j) :
    S.Follows w (do
        match ← m.branch? i d cs with
        | some block => m.blockIn i block
        | none => return .normal) (do
        match ← m'.branch? j d' cs' with
        | some block => m'.blockIn j block
        | none => return .normal) S.SameFlow := by
  refine follows_bind (h.branch? hcs hd hs)
    fun w' block? block?' hw' hblock => ?_
  cases hblock with
  | some hb => exact h.blockIn U hb (S.sees_le hw' hs)
  | none => exact follows_pure ⟨rfl, nofun⟩

/-- A statement that declares names needs a scope to bind them in, others need
only see the same. -/
theorem evalStat (h : S.Parts m m') (U : S.Upheld m.host) {s s' : Stat}
    (hss : s.Alike S.blocks s') (hs : S.sees w i j)
    (hown : s.declares ≠ [] → S.owns w i j) :
    S.Follows w (m.evalStat s i) (m'.evalStat s' j) S.SameFlow := by
  have hnormal : ∀ {w' : S.World}, S.SameFlow w' .normal .normal := ⟨rfl, nofun⟩
  cases hss with
  | «do» hb => exact h.blockIn U hb hs
  | «break» => exact follows_pure ⟨rfl, nofun⟩
  | «return» hes =>
    refine follows_bind (h.exprs hes hs) ?_
    rintro w' _ vs _ ⟨rfl, hvs⟩
    refine follows_pure ⟨rfl, ?_⟩
    rintro _ ⟨⟩
    rcases List.eq_nil_or_concat vs with rfl | ⟨vs, v, rfl⟩
    · exact U.plain (by simp)
    · simpa using hvs v (by simp)
  | expr he =>
    exact follows_bind (h.expr he hs) fun _ _ _ _ _ => follows_pure hnormal
  | anonymous isLocal params hb =>
    exact follows_bind (U.makeClosure _ ⟨rfl, hb, hs⟩) fun _ _ _ _ _ =>
      follows_fail
  | @function isLocal params t t' _ _ ht hb =>
    have hname : Machine.functionName (some t') =
        Machine.functionName (some t) := by
      simp only [Machine.functionName, Option.bind_some, ht.dottedName?]
    simp only [Machine.evalStat, hname]
    refine follows_bind (U.makeClosure _ ⟨rfl, hb, hs⟩) ?_
    rintro w' _ f hw' ⟨rfl, hf⟩
    refine follows_bind (h.storeFunction U ht (S.sees_le hw' hs)
        (fun hne => S.owns_le hw' (hown hne)) hf) ?_
    exact fun _ _ _ _ _ => follows_pure hnormal
  | «local» names hes =>
    refine follows_bind (h.exprs hes hs) ?_
    rintro w' _ vs hw' ⟨rfl, hvs⟩
    refine follows_bind (Q := S.Whatever) ?_ fun _ _ _ _ _ =>
      follows_pure hnormal
    cases names with
    | nil => exact follows_pure trivial
    | cons x names =>
      exact U.define _ (S.owns_le hw' (hown (List.cons_ne_nil x names))) hvs
  | «if» he hb hcs => exact h.conditional U (.cons he hb hcs) .none hs
  | ifElse he hb hcs hd => exact h.conditional U (.cons he hb hcs) (.some hd) hs
  | forRange x he hf hg hb =>
    refine follows_bind (h.rangeNumber _ he hs) ?_
    rintro w₁ _ start hw₁ rfl
    have hs₁ := S.sees_le hw₁ hs
    refine follows_bind (h.rangeNumber _ hf hs₁) ?_
    rintro w₂ _ stop hw₂ rfl
    have hs₂ := S.sees_le hw₂ hs₁
    refine follows_bind (h.rangeNumber _ hg hs₂) ?_
    rintro w₃ _ step hw₃ rfl
    have hs₃ := S.sees_le hw₃ hs₂
    exact follows_loop (fun w' current hw' =>
        h.rangeTurn U x hb (S.sees_le hw' hs₃) stop step current) h.rounds start
  | forEach names he hb =>
    refine follows_bind (h.expr he hs) ?_
    rintro w' _ source hw' ⟨rfl, hsource⟩
    have hs' := S.sees_le hw' hs
    exact follows_loop (fun w'' _ hw'' =>
      h.eachTurn U names (S.good_le hw'' hsource) hb
        (S.sees_le hw'' hs')) h.rounds ()
  | «while» he hb =>
    exact follows_loop
      (fun w' _ hw' => h.whileTurn U he hb (S.sees_le hw' hs)) h.rounds ()
  | «repeat» hb he =>
    exact follows_loop
      (fun w' _ hw' => h.repeatTurn U hb he (S.sees_le hw' hs)) h.rounds ()

end Parts

theorem follows_then {first first' rest rest' : Action Flow}
    (h : S.Follows w first first' S.SameFlow)
    (hrest : ∀ {w'}, S.le w w' → S.Follows w' rest rest' S.SameFlow) :
    S.Follows w (do match ← first with | .normal => rest | flow => return flow)
      (do match ← first' with | .normal => rest' | flow => return flow)
      S.SameFlow := by
  refine follows_bind h ?_
  rintro w' _ flow hw' ⟨rfl, hflow⟩
  cases flow with
  | normal => exact hrest hw'
  | broke => exact follows_pure ⟨rfl, nofun⟩
  | returned v => exact follows_pure ⟨rfl, hflow⟩

theorem evalBlock_single (m : Machine) (s : Stat) (i : ScopeId) :
    m.evalBlock [s] i = m.evalStat s i := by
  refine Eq.trans (bind_congr fun flow => ?_) (bind_pure (m.evalStat s i))
  cases flow <;> rfl

/-- The fuel left decides whether a block around a single statement can be
entered, so the machines that have one unit less must run code alike too. -/
theorem evalBlock {limit n k : Nat} (U : S.Upheld host)
    (h : S.Parts (.ofFuel host limit n) (.ofFuel host limit k))
    (hright : S.blocks →
      ∃ k', k = k' + 1 ∧ S.Parts (.ofFuel host limit n) (.ofFuel host limit k'))
    (hleft : S.blocks →
      ∀ n', n = n' + 1 → S.Parts (.ofFuel host limit n') (.ofFuel host limit k))
    {b b' : Block} (hb : BlockAlike S.blocks b b') (hij : S.owns w i j) :
    S.Follows w ((Machine.ofFuel host limit n).evalBlock b i)
      ((Machine.ofFuel host limit k).evalBlock b' j) S.SameFlow := by
  have hhost : ∀ n, S.Upheld (Machine.ofFuel host limit n).host := fun n => by
    cases n <;> exact U
  have hs := S.sees_of_owns hij
  induction b generalizing w b' with
  | nil =>
    cases hb
    exact follows_pure ⟨rfl, nofun⟩
  | cons s b ih =>
    have hrest : ∀ {b'}, BlockAlike S.blocks b b' → ∀ {w'}, S.le w w' →
        S.Follows w' ((Machine.ofFuel host limit n).evalBlock b i)
          ((Machine.ofFuel host limit k).evalBlock b' j) S.SameFlow :=
      fun hb _ hw' => ih hb (S.owns_le hw' hij) (S.sees_le hw' hs)
    cases hb with
    | cons hss hb =>
      exact follows_then (h.evalStat (hhost n) hss hs fun _ => hij) (hrest hb)
    | @wrap _ s' _ _ hblocks hnone hss hb =>
      refine follows_then ?_ (hrest hb)
      obtain ⟨k, rfl, hparts⟩ := hright hblocks
      -- the first run stays in its scope while the second one enters a new
      -- scope
      show S.Follows w
        (pure i >>= fun i => (Machine.ofFuel host limit n).evalStat s i)
        (openScope j [] [] >>=
          fun j => (Machine.ofFuel host limit k).evalBlock [s'] j) _
      refine follows_bind (U.enter hblocks hs) fun w' i j _ hs => ?_
      rw [evalBlock_single]
      exact hparts.evalStat (hhost n) hss hs fun hne => absurd hnone hne
    | @unwrap s s' _ _ hblocks hnone hss hb =>
      refine follows_then ?_ (hrest hb)
      show S.Follows w (openScope i [] [] >>=
          fun i => (Machine.ofFuel host limit n).block [s] i)
        (pure j >>= fun j => (Machine.ofFuel host limit k).evalStat s' j) _
      refine follows_bind (U.enterLeft hblocks hs) fun w' i j _ hs => ?_
      cases n with
      | zero => exact follows_outOfFuel
      | succ n =>
        show S.Follows w' ((Machine.ofFuel host limit n).evalBlock [s] i) _ _
        rw [evalBlock_single]
        exact (hleft hblocks n rfl).evalStat (hhost n) hss hs fun hne =>
          absurd hnone hne

/-- With more fuel, and twice as much where blocks may be added, code that is
alike runs alike. -/
theorem parts_ofFuel {limit : Nat} (U : S.Upheld host) (n k : Nat) (hle : n ≤ k)
    (hblocks : S.blocks → 2 * n ≤ k) :
    S.Parts (.ofFuel host limit n) (.ofFuel host limit k) := by
  induction n using Nat.strongRecOn generalizing k with
  | ind n ih =>
    cases n with
    | zero =>
      exact ⟨by cases k <;> rfl, by cases k <;> rfl, Nat.zero_le _,
        fun _ _ => follows_outOfFuel, fun _ _ => follows_outOfFuel⟩
    | succ n =>
      obtain ⟨k, rfl⟩ :=
        Nat.exists_eq_add_of_le' (Nat.le_trans (Nat.le_add_left 1 n) hle)
      have hparts : S.Parts (.ofFuel host limit n) (.ofFuel host limit k) :=
        ih n (by omega) k (by omega) fun h => by have := hblocks h; omega
      refine ⟨rfl, rfl, Nat.le_of_succ_le_succ hle, ?_, ?_⟩
      · exact fun he hs => hparts.evalExpr (by cases n <;> exact U) he hs
      · refine fun hb hij =>
          evalBlock U hparts (fun h => ?_) (fun h n' hn' => ?_) hb hij
        · have := hblocks h
          exact ⟨k - 1, by omega,
            ih n (by omega) (k - 1) (by omega) fun _ => by omega⟩
        · have := hblocks h
          exact ih n' (by omega) k (by omega) fun _ => by omega

theorem Parts.topLevel (h : S.Parts m m') (U : S.Upheld m.host) {b b' : Block}
    (hb : BlockAlike S.blocks b b')
    (hroot : S.owns w Scopes.rootId Scopes.rootId) :
    S.Follows w (Session.topLevel m b)
      (Session.topLevel m' b') S.SameValue := by
  refine follows_bind (h.block hb hroot) ?_
  rintro w' _ flow _ ⟨rfl, hflow⟩
  cases flow with
  | normal => exact follows_pure ⟨rfl, U.plain (by simp)⟩
  | broke => exact follows_fail
  | returned v => exact follows_pure ⟨rfl, hflow v rfl⟩

/-- If a program ends in a session, then one that is alike ends there with the
same answer. -/
theorem interpret {s : Session} {c c' : Chunk} {n k : Nat} (U : S.Upheld s.host)
    (hle : n ≤ k) (hblocks : S.blocks → 2 * n ≤ k)
    (hb : BlockAlike S.blocks c.body c'.body)
    (hroot : S.owns w Scopes.rootId Scopes.rootId)
    (hrel : S.rel w s.store s.store)
    (hends : (s.interpret n c).1 ≠ .unfinished) :
    (s.interpret k c').1 = (s.interpret n c).1 ∧
      ∃ w' τ τ', S.rel w' τ τ' ∧ (s.interpret n c).2 = { s with store := τ } ∧
        (s.interpret k c').2 = { s with store := τ' } := by
  have hhost : (Machine.ofFuel s.host s.limit n).host = s.host := by
    cases n <;> rfl
  have hruns :=
    (parts_ofFuel U n k hle hblocks).topLevel (hhost ▸ U) hb hroot _ _ hrel
  unfold Session.interpret at hends ⊢
  cases hn : Session.topLevel (.ofFuel s.host s.limit n) c.body s.store with
  | outOfFuel => simp [hn] at hends
  | done v τ =>
    cases hk : Session.topLevel (.ofFuel s.host s.limit k) c'.body s.store with
    | done v' τ' =>
      rw [hn, hk] at hruns
      obtain ⟨w', _, hrel', rfl, _⟩ := hruns
      exact ⟨rfl, w', τ, τ', hrel', rfl, rfl⟩
    | fail e τ' =>
      rw [hn, hk] at hruns
      exact hruns.elim
    | outOfFuel =>
      rw [hn, hk] at hruns
      exact hruns.elim
  | fail e τ =>
    cases hk : Session.topLevel (.ofFuel s.host s.limit k) c'.body s.store with
    | done v' τ' =>
      rw [hn, hk] at hruns
      exact hruns.elim
    | fail e' τ' =>
      rw [hn, hk] at hruns
      obtain ⟨rfl, w', _, hrel'⟩ := hruns
      exact ⟨rfl, w', τ, τ', hrel', rfl, rfl⟩
    | outOfFuel =>
      rw [hn, hk] at hruns
      exact hruns.elim

end Simulation

end LuaCore
