import LuaCore.Proofs.Reader.Faithful
import LuaCore.Proofs.Reader.WellFormed
import LuaCore.Proofs.Script.Stretch
import LuaCore.Proofs.Token.Identifier

namespace LuaCore

def Identified (ps : List Piece) : Prop :=
  ∀ x, .token (.name x) ∈ ps → IsIdentifier x

section Identified

variable {ps qs : List Piece} {x : String}

@[simp] theorem identified_nil : Identified [] := nofun

@[simp] theorem identified_append :
    Identified (ps ++ qs) ↔ Identified ps ∧ Identified qs := by
  simp [Identified, or_imp, forall_and]

@[simp] theorem identified_name :
    Identified (.token (.name x) :: ps) ↔ IsIdentifier x ∧ Identified ps := by
  simp [Identified]

@[simp] theorem identified_keyword {k : Keyword} :
    Identified (.token (.keyword k) :: ps) ↔ Identified ps := by
  simp [Identified]

@[simp] theorem identified_symbol {s : Symbol} :
    Identified (.token (.symbol s) :: ps) ↔ Identified ps := by
  simp [Identified]

@[simp] theorem identified_unary {op : UnaryOp} :
    Identified (.token op.token :: ps) ↔ Identified ps := by
  cases op <;> simp [UnaryOp.token]

@[simp] theorem identified_binary {op : BinaryOp} :
    Identified (.token op.token :: ps) ↔ Identified ps := by
  cases op <;> simp [BinaryOp.token]

@[simp] theorem identified_namePieces {xs : List String} :
    Identified (namePieces xs) ↔ ∀ x ∈ xs, IsIdentifier x := by
  simp [Identified, namePieces]

@[simp] theorem identified_step {e : Expr} :
    Identified (if e.isUnit then [.unitStep] else e.pieces) ↔
      Identified e.pieces := by
  cases hunit : e.isUnit with
  | false => rfl
  | true =>
    cases e with
    | number x => simp [Identified, Expr.pieces]
    | _ => cases hunit

@[simp] theorem identified_values {es : List Expr} :
    Identified
      (if es.isEmpty then [] else .token (.symbol .assign) :: exprPieces es) ↔
      Identified (exprPieces es) := by
  cases es with
  | nil => rfl
  | cons e es => exact identified_symbol

end Identified

/-- What a source that is read makes sure of. -/
structure Stretch.Sound (t : Stretch) : Prop where
  params : ∀ x ∈ t.params, IsIdentifier x
  head : ∀ x ∈ t.head, IsIdentifier x
  body : Identified (blockPieces t.body)
  wellFormed : t.body.WellFormed

def AllSound (ts : List Stretch) : Prop := ∀ t ∈ ts, t.Sound

theorem allSound_nil : AllSound [] := nofun

theorem AllSound.append {ts us : List Stretch} (h : AllSound ts)
    (h' : AllSound us) :
    AllSound (ts ++ us) :=
  List.forall_mem_append.mpr ⟨h, h'⟩

theorem AllSound.ended {ts : List Stretch} {t : Stretch} (h : AllSound ts)
    (ht : t.Sound) :
    AllSound (ts ++ [t]) :=
  h.append (List.forall_mem_singleton.mpr ht)

theorem Expr.stretches_of_namesFunction {target : Expr} {params : List String}
    (h : target.namesFunction params = true) : target.stretches = [] := by
  have dotted : ∀ {e : Expr}, e.isDotted = true → e.stretches = [] := by
    intro e he
    induction e using Expr.isDotted.induct with
    | case1 x => rfl
    | case2 object key ih => exact (List.append_nil _).trans (ih he)
    | case3 e hname hmember =>
      rw [Expr.isDotted] at he
      · exact absurd he Bool.false_ne_true
      · exact hname
      · exact hmember
  rw [Expr.namesFunction, Bool.or_eq_true, Bool.and_eq_true] at h
  rcases h with h | ⟨h, -⟩
  · exact dotted h
  · unfold Expr.isMethodName at h
    split at h
    · exact (List.append_nil _).trans (dotted h)
    · cases h

/-- The parameters of a function are written, or else the first is `self`. -/
theorem Expr.isIdentifier_of_mem_params {target : Expr} {params : List String}
    (h : target.namesFunction params = true)
    (hwritten : ∀ x ∈ target.writtenParams params, IsIdentifier x) :
    ∀ x ∈ params, IsIdentifier x := by
  unfold Expr.writtenParams at hwritten
  rw [Expr.namesFunction, Bool.or_eq_true, Bool.and_eq_true] at h
  rcases h with h | ⟨h, hfirst⟩
  · rwa [Expr.isMethodName_of_isDotted h] at hwritten
  · rw [h, if_pos rfl] at hwritten
    cases params with
    | nil => exact List.forall_mem_nil _
    | cons x params =>
      obtain rfl : x = "self" := by simpa using hfirst
      exact List.forall_mem_cons.mpr ⟨isIdentifier_self, hwritten⟩

theorem Stat.isIdentifier_of_mem_locals {s : Stat} (h : Identified s.pieces) :
    ∀ x ∈ s.locals, IsIdentifier x := by
  unfold Stat.locals
  split
  · simp only [Stat.pieces, List.cons_append, identified_keyword,
      identified_append, identified_namePieces] at h
    exact h.1
  · simp only [Stat.pieces, Expr.pieces, List.cons_append, identified_keyword,
      identified_append, identified_name] at h
    exact List.forall_mem_singleton.mpr h.1
  · exact List.forall_mem_nil _

theorem AllSound.block {ts : List Stretch} {body : Block} (h : AllSound ts)
    (hinside : AllSound (blockStretches [] [] body))
    (hbody : blockWellFormed body = true)
    (hpieces : Identified (blockPieces body)) :
    AllSound (ts ++ blockStretches [] [] body ++ [⟨[], [], body⟩]) :=
  (h.append hinside).ended
    ⟨List.forall_mem_nil _, List.forall_mem_nil _, hpieces, hbody⟩

theorem sound_loopHead {head : List String} {body : Block}
    (hhead : ∀ x ∈ head, IsIdentifier x) (hbody : blockWellFormed body = true)
    (hpieces : Identified (blockPieces body)) :
    Stretch.Sound ⟨[], head, [.do body]⟩ where
  params := List.forall_mem_nil _
  head := hhead
  body := by simpa [blockPieces, Stat.pieces] using hpieces
  wellFormed := by
    simpa [Block.WellFormed, blockWellFormed, Stat.wellFormed, Stat.isReturn]
      using hbody

mutual

theorem Expr.allSound_stretches {isCallee : Bool} {e : Expr}
    (he : e.wellFormed isCallee = true) (h : Identified e.pieces) :
    AllSound e.stretches := by
  cases e with
  | unary op operand =>
    rw [Expr.wellFormed] at he
    rw [Expr.pieces, identified_unary] at h
    exact operand.allSound_stretches he h
  | binary op left right =>
    rw [Expr.wellFormed, Bool.and_eq_true] at he
    rw [Expr.pieces, identified_append, identified_binary] at h
    exact (left.allSound_stretches he.1 h.1).append
      (right.allSound_stretches he.2 h.2)
  | call callee args =>
    rw [Expr.wellFormed, Bool.and_eq_true] at he
    rw [Expr.pieces, identified_append] at h
    exact (callee.allSound_stretches he.1 h.1).append (exprsSound he.2 h.2)
  | member object access key =>
    cases access with
    | bracket =>
      rw [Expr.wellFormed, Bool.and_eq_true] at he
      simp only [Expr.pieces, identified_append, identified_symbol] at h
      exact (object.allSound_stretches he.1 h.1.1).append
        (key.allSound_stretches he.2 h.1.2)
    | dot =>
      cases key with
      | name x =>
        rw [Expr.wellFormed] at he
        rw [Expr.pieces, identified_append] at h
        exact (object.allSound_stretches he h.1).append allSound_nil
      | _ => cases he
    | colon =>
      cases key with
      | name x =>
        rw [Expr.wellFormed, Bool.and_eq_true] at he
        rw [Expr.pieces, identified_append] at h
        exact (object.allSound_stretches he.2 h.1).append allSound_nil
      | _ => cases he
  | assign targets values => cases he
  | table fields =>
    rw [Expr.wellFormed] at he
    simp only [Expr.pieces, List.cons_append, identified_symbol,
      identified_append] at h
    exact fieldsSound he h.1
  | function params body =>
    rw [Expr.wellFormed] at he
    simp only [Expr.pieces, List.cons_append, identified_keyword,
      identified_append, identified_namePieces] at h
    exact (blockSound allSound_nil he h.1.2).ended
      ⟨h.1.1, List.forall_mem_nil _, h.1.2, he⟩
  | _ => exact allSound_nil

theorem exprsSound {es : List Expr} (hes : exprsWellFormed es = true)
    (h : Identified (exprPieces es)) : AllSound (exprStretches es) := by
  cases es with
  | nil => exact allSound_nil
  | cons e es =>
    rw [exprsWellFormed, Bool.and_eq_true] at hes
    rw [exprPieces, identified_append] at h
    exact (e.allSound_stretches hes.1 h.1).append (exprsSound hes.2 h.2)

theorem Field.allSound_stretches {f : Field} (hf : f.wellFormed = true)
    (h : Identified f.pieces) :
    AllSound f.stretches := by
  cases f with
  | named key value =>
    rw [Field.wellFormed] at hf
    rw [Field.pieces, identified_name, identified_symbol] at h
    exact value.allSound_stretches hf h.2
  | keyed key value =>
    rw [Field.wellFormed, Bool.and_eq_true] at hf
    simp only [Field.pieces, List.cons_append, identified_symbol,
      identified_append] at h
    exact (key.allSound_stretches hf.1 h.1).append
      (value.allSound_stretches hf.2 h.2)
  | item value => exact value.allSound_stretches hf h

theorem fieldsSound {fs : List Field} (hfs : fieldsWellFormed fs = true)
    (h : Identified (fieldPieces fs)) : AllSound (fieldStretches fs) := by
  cases fs with
  | nil => exact allSound_nil
  | cons f fs =>
    rw [fieldsWellFormed, Bool.and_eq_true] at hfs
    rw [fieldPieces, identified_append] at h
    exact (f.allSound_stretches hfs.1 h.1).append (fieldsSound hfs.2 h.2)

theorem Stat.allSound_stretches {s : Stat} (hs : s.wellFormed = true)
    (h : Identified s.pieces) :
    AllSound s.stretches := by
  cases s with
  | «do» body =>
    rw [Stat.wellFormed] at hs
    simp only [Stat.pieces, List.cons_append, identified_keyword,
      identified_append] at h
    exact allSound_nil.block (blockSound allSound_nil hs h.1) hs h.1
  | «break» => exact allSound_nil
  | «return» values =>
    rw [Stat.wellFormed] at hs
    rw [Stat.pieces, identified_keyword] at h
    exact exprsSound hs h
  | expr e =>
    rw [Stat.pieces] at h
    cases e with
    | call callee args =>
      rw [Stat.wellFormed, Bool.and_eq_true] at hs
      rw [Expr.pieces, identified_append] at h
      exact (callee.allSound_stretches hs.1 h.1).append (exprsSound hs.2 h.2)
    | assign targets values =>
      simp only [Stat.wellFormed, Bool.and_eq_true] at hs
      rw [Expr.pieces, identified_append, identified_symbol] at h
      exact (exprsSound hs.1.1.2 h.1).append (exprsSound hs.2 h.2)
    | _ => cases hs
  | function target isLocal params body =>
    cases target with
    | none => cases isLocal <;> cases hs
    | some target =>
      cases isLocal with
      | true =>
        cases target with
        | name x =>
          rw [Stat.wellFormed] at hs
          simp only [Stat.pieces, Expr.pieces, List.cons_append,
            List.nil_append, identified_keyword, identified_name,
            identified_append, identified_namePieces] at h
          exact (blockSound allSound_nil hs h.2.1.2).ended
            ⟨h.2.1.1, List.forall_mem_nil _, h.2.1.2, hs⟩
        | _ => cases hs
      | false =>
        rw [Stat.wellFormed_named, Bool.and_eq_true] at hs
        simp only [Stat.pieces, List.cons_append, identified_keyword,
          identified_append, identified_namePieces] at h
        have hparams := Expr.isIdentifier_of_mem_params hs.1 h.1.1.2
        rw [Stat.stretches, Expr.stretches_of_namesFunction hs.1]
        exact (blockSound allSound_nil hs.2 h.1.2).ended
          ⟨hparams, List.forall_mem_nil _, h.1.2, hs.2⟩
  | «local» names values =>
    rw [Stat.wellFormed, Bool.and_eq_true] at hs
    simp only [Stat.pieces, List.cons_append, identified_keyword,
      identified_append, identified_values] at h
    exact exprsSound hs.2 h.2
  | «if» test body clauses otherwise =>
    simp only [Stat.pieces, List.cons_append, identified_keyword,
      identified_append] at h
    obtain ⟨⟨⟨⟨htest, hbody⟩, hclauses⟩, hotherwise⟩, -⟩ := h
    cases otherwise with
    | none =>
      simp only [Stat.wellFormed, Bool.and_eq_true] at hs
      have hfirst := (test.allSound_stretches hs.1.1 htest).block
        (blockSound allSound_nil hs.1.2 hbody) hs.1.2 hbody
      exact hfirst.append (clausesSound hs.2 hclauses)
    | some otherwise =>
      simp only [Stat.wellFormed, Bool.and_eq_true] at hs
      rw [elsePieces, identified_keyword] at hotherwise
      have hfirst := (test.allSound_stretches hs.1.1.1 htest).block
        (blockSound allSound_nil hs.1.1.2 hbody) hs.1.1.2 hbody
      exact (hfirst.append (clausesSound hs.1.2 hclauses)).block
        (blockSound allSound_nil hs.2 hotherwise) hs.2 hotherwise
  | forRange x start stop step body =>
    simp only [Stat.wellFormed, Bool.and_eq_true] at hs
    simp only [Stat.pieces, List.cons_append, identified_keyword,
      identified_append, identified_name, identified_symbol, identified_step]
      at h
    obtain ⟨hx, ⟨⟨⟨hstart, hstop⟩, hstep⟩, hbody⟩, -⟩ := h
    have hbounds := ((start.allSound_stretches hs.1.1.1 hstart).append
        (stop.allSound_stretches hs.1.1.2 hstop)).append
      (step.allSound_stretches hs.1.2 hstep)
    have hloop := hbounds.block (blockSound allSound_nil hs.2 hbody) hs.2 hbody
    rw [Stat.stretches, List.append_cons]
    exact hloop.ended
      (sound_loopHead (List.forall_mem_singleton.mpr hx) hs.2 hbody)
  | forEach names source body =>
    simp only [Stat.wellFormed, Bool.and_eq_true] at hs
    simp only [Stat.pieces, List.cons_append, identified_keyword,
      identified_append, identified_namePieces] at h
    obtain ⟨⟨⟨hnames, hsource⟩, hbody⟩, -⟩ := h
    have hinside :
        AllSound (source.stretches ++ blockStretches names [] body) :=
      (source.allSound_stretches hs.1.2 hsource).append
        (blockSound allSound_nil hs.2 hbody)
    have hloop : Stretch.Sound ⟨[], names, body⟩ :=
      ⟨List.forall_mem_nil _, hnames, hbody, hs.2⟩
    rw [Stat.stretches, List.append_cons]
    exact (hinside.ended hloop).ended
      (sound_loopHead (List.forall_mem_nil _) hs.2 hbody)
  | «while» test body =>
    rw [Stat.wellFormed, Bool.and_eq_true] at hs
    simp only [Stat.pieces, List.cons_append, identified_keyword,
      identified_append] at h
    obtain ⟨⟨htest, hbody⟩, -⟩ := h
    exact (test.allSound_stretches hs.1 htest).block
      (blockSound allSound_nil hs.2 hbody) hs.2 hbody
  | «repeat» body test =>
    rw [Stat.wellFormed, Bool.and_eq_true] at hs
    simp only [Stat.pieces, List.cons_append, identified_keyword,
      identified_append] at h
    exact (blockSound (test.allSound_stretches hs.2 h.2) hs.1 h.1).ended
      ⟨List.forall_mem_nil _, List.forall_mem_nil _, h.1, hs.1⟩

theorem blockSound {declared : List String} {tail : List Stretch}
    {ss : List Stat} (htail : AllSound tail) (hss : blockWellFormed ss = true)
    (h : Identified (blockPieces ss)) :
    AllSound (blockStretches declared tail ss) := by
  cases ss with
  | nil => exact htail
  | cons s ss =>
    simp only [blockWellFormed, Bool.and_eq_true] at hss
    rw [blockPieces, identified_append] at h
    have hs := s.allSound_stretches hss.1.1 h.1
    rw [blockStretches]
    split
    · have hlocals := Stat.isIdentifier_of_mem_locals h.1
      exact (hs.append (blockSound htail hss.2 h.2)).ended
        ⟨List.forall_mem_nil _, hlocals, h.2, hss.2⟩
    · exact hs.append (blockSound htail hss.2 h.2)

theorem clausesSound {cs : List Clause} (hcs : clausesWellFormed cs = true)
    (h : Identified (clausePieces cs)) : AllSound (clauseStretches cs) := by
  cases cs with
  | nil => exact allSound_nil
  | cons c cs =>
    cases c with
    | mk test body =>
      simp only [clausesWellFormed, Clause.wellFormed, Bool.and_eq_true] at hcs
      simp only [clausePieces, Clause.pieces, List.cons_append,
        identified_keyword, identified_append] at h
      obtain ⟨⟨htest, hbody⟩, hcs'⟩ := h
      exact ((test.allSound_stretches hcs.1.1 htest).block
          (blockSound allSound_nil hcs.1.2 hbody) hcs.1.2 hbody).append
        (clausesSound hcs.2 hcs')

end

theorem Spelled.mem_of_mem {ks : List TokenKind} {ps : List Piece}
    {k : TokenKind} (h : Spelled ks ps) (hk : .token k ∈ ps) :
    k ∈ ks := by
  induction h with
  | nil => cases hk
  | token k' _ ih =>
    rcases List.mem_cons.mp hk with hk | hk
    · cases hk
      exact List.mem_cons_self
    · exact List.mem_cons_of_mem _ (ih hk)
  | written _ ih =>
    rcases List.mem_cons.mp hk with hk | hk
    · cases hk
    · exact List.mem_cons_of_mem _ (ih hk)
  | implied _ ih =>
    rcases List.mem_cons.mp hk with hk | hk
    · cases hk
    · exact ih hk

theorem exists_of_mem_significantKinds {ts : List Token} {k : TokenKind}
    (h : k ∈ significantKinds ts) :
    ∃ t ∈ ts, t.kind = k := by
  induction ts using significantKinds.induct with
  | case1 => cases h
  | case2 text p ts ih =>
    obtain ⟨t, ht, hk⟩ := ih h
    exact ⟨t, List.mem_cons_of_mem _ ht, hk⟩
  | case3 t ts hkind ih =>
    rw [significantKinds.eq_3 t ts hkind] at h
    rcases List.mem_cons.mp h with rfl | h
    · exact ⟨t, List.mem_cons_self, rfl⟩
    · obtain ⟨t', ht', hk⟩ := ih h
      exact ⟨t', List.mem_cons_of_mem _ ht', hk⟩

theorem Chunk.identified_of_ofSource {source : String} {c : Chunk}
    (h : ofSource source = .ok c) :
    Identified (blockPieces c.body) := by
  intro x hx
  have hkind := (accounts_of_ofSource h).spells.mem_of_mem hx
  obtain ⟨t, ht, hkind⟩ :=
    exists_of_mem_significantKinds (List.mem_filter.mp hkind).1
  exact Tokens.isIdentifier_of_mem ht hkind

theorem isIdentifier_of_mem_preludeNames :
    ∀ x ∈ preludeNames, IsIdentifier x := by
  decide

theorem Chunk.allSound_stretches {source : String} {c : Chunk}
    (h : ofSource source = .ok c) :
    AllSound c.stretches := by
  have hbody := wellFormed_of_ofSource h
  have hpieces := identified_of_ofSource h
  have htop : Stretch.Sound ⟨[], preludeNames, c.body⟩ :=
    ⟨List.forall_mem_nil _, isIdentifier_of_mem_preludeNames, hpieces, hbody⟩
  exact (blockSound allSound_nil hbody hpieces).ended htop

end LuaCore
