import LuaCore.Proofs.Script.Grammar

namespace LuaCore

open Lowering

namespace Script

variable {text : List Char} {ts : List Token} {t : Term}
    {ends : List Char → Prop}

/-- A text that is an operand whatever comes after it, as long as its last token
ends there. -/
structure Reads (ends : List Char → Prop) (text : List Char) (ts : List Token)
    (t : Term) : Prop where
  begins : StandsApart text
  tokens : ∀ rest, ends rest →
    tokens (text ++ rest) = (tokens rest).map (ts ++ ·)
  operand : ∀ n rest, 2 * ts.length ≤ n + 1 →
    readOperand n (ts ++ rest) =
      some ((members t rest).1, false, (members t rest).2)

/-- A text that is an expression up to a closing parenthesis. -/
structure ReadsInside (text : List Char) (ts : List Token) (t : Term) :
    Prop where
  tokens : ∀ rest, Script.tokens (text ++ ')' :: rest) =
    (Script.tokens (')' :: rest)).map (ts ++ ·)
  expression : ∀ n rest, 2 * ts.length ≤ n →
    readExpression n 0 (ts ++ .punctuator ")" :: rest) =
      some (t, .punctuator ")" :: rest)

/-- Tokens at which an expression with operators of at least a
precedence ends. -/
inductive Stops (limit : Nat) : List Token → Prop
  | nil : Stops limit []
  | punctuator {p : String} (ts : List Token) (hpoint : p ≠ ".")
      (hop : ∀ op, Operator.ofText? p = some op → op.precedence < limit) :
      Stops limit (.punctuator p :: ts)

theorem stops_close (limit : Nat) (ts : List Token) :
    Stops limit (.punctuator ")" :: ts) :=
  .punctuator ts (by decide) fun op h => by cases h

theorem stops_operator {op : Operator} {limit : Nat} (h : op.precedence < limit)
    (ts : List Token) :
    Stops limit (.punctuator op.text :: ts) := by
  refine .punctuator ts (by cases op <;> decide) fun op' hop' => ?_
  rw [Operator.ofText?_text] at hop'
  cases hop'
  exact h

theorem members_punctuator {p : String} (hp : p ≠ ".") (t : Term)
    (ts : List Token) :
    members t (.punctuator p :: ts) = (t, .punctuator p :: ts) := by
  unfold members
  split
  · next heq => cases heq; exact if_neg hp
  · next heq => cases heq; exact if_neg hp
  · rfl

theorem Stops.members {limit : Nat} (h : Stops limit ts) (t : Term) :
    members t ts = (t, ts) := by
  cases h with
  | nil => rfl
  | punctuator ts hpoint _ => exact members_punctuator hpoint t ts

theorem Stops.readOperators {limit : Nat} (h : Stops limit ts) (n : Nat)
    (t : Term) (isUnary : Bool) :
    readOperators (n + 1) limit t isUnary ts = some (t, ts) := by
  cases h with
  | nil => rw [Script.readOperators]; nofun
  | @punctuator p ts _ hop =>
    rw [Script.readOperators]
    split
    · rfl
    · next op heq => exact if_pos (hop op heq)

theorem Reads.length_pos (h : Reads ends text ts t) : 0 < ts.length := by
  refine Nat.pos_of_ne_zero fun hzero => ?_
  have hnone := h.operand 0 [] (by omega)
  rw [readOperand] at hnone
  cases hnone

theorem Reads.readExpression (h : Reads ends text ts t) {limit : Nat}
    {rest : List Token} (hrest : Stops limit rest) {n : Nat}
    (hn : 2 * ts.length ≤ n) :
    readExpression n limit (ts ++ rest) = some (t, rest) := by
  have hpos := h.length_pos
  obtain ⟨n, rfl⟩ : ∃ m, n = m + 2 := ⟨n - 2, by omega⟩
  rw [Script.readExpression, h.operand (n + 1) rest (by omega), hrest.members]
  exact hrest.readOperators n t false

def EndsAtClose (ends : List Char → Prop) : Prop := ∀ rest, ends (')' :: rest)

theorem ReadsInside.reads (h : ReadsInside text ts t) :
    Reads (fun _ => True) ('(' :: (text ++ [')']))
      (.punctuator "(" :: (ts ++ [.punctuator ")"])) t where
  begins := ⟨'(', _, rfl, .inr (.inl rfl)⟩
  tokens rest _ := by
    have hinside := h.tokens rest
    rw [List.cons_append, tokens_open, List.append_assoc, List.singleton_append,
      hinside, tokens_close]
    simp [Option.map_map, Function.comp_def]
  operand n rest hn := by
    simp only [List.length_cons, List.length_append, List.length_nil] at hn
    obtain ⟨n, rfl⟩ : ∃ m, n = m + 1 := ⟨n - 1, by omega⟩
    rw [List.cons_append, List.append_assoc, List.singleton_append, readOperand,
      if_neg (by decide), if_neg (by decide), if_pos rfl,
      h.expression n rest (by omega)]
    rfl

theorem Reads.inside (h : Reads ends text ts t) (hends : EndsAtClose ends) :
    ReadsInside text ts t where
  tokens rest := h.tokens _ (hends rest)
  expression _ _ hn := h.readExpression (stops_close 0 _) hn

theorem reads_atom {token : Token} (hbegins : StandsApart text)
    (htokens : ∀ rest, ends rest → Script.tokens (text ++ rest) =
        (Script.tokens rest).map (token :: ·)) (hatom : atom? token = some t) :
    Reads ends text [token] t where
  begins := hbegins
  tokens := htokens
  operand n rest hn := by
    obtain ⟨n, rfl⟩ : ∃ m, n = m + 1 := ⟨n - 1, by simp at hn; omega⟩
    rw [List.singleton_append, readOperand]
    · rw [hatom]
      rfl
    · rintro _ rfl
      cases hatom

theorem reads_word {x : String} (hx : isWord x = true)
    (hatom : atom? (wordToken x) = some t) :
    Reads EndsWord x.toList [wordToken x] t := by
  refine reads_atom ?_ (fun rest hrest => tokens_word hx hrest) hatom
  unfold isWord at hx
  split at hx
  · cases hx
  · next c cs hchars =>
    rw [Bool.and_eq_true] at hx
    exact ⟨c, cs, hchars, .inl (isScriptWordChar_of_startsWord hx.1)⟩

theorem reads_quote (text : String) :
    Reads EndsWord (quote text).toList [.string text] (.string text) := by
  refine reads_atom ?_ (fun rest _ => tokens_quote text rest) rfl
  rw [quote, String.toList_ofList]
  exact ⟨'"', _, rfl, .inr (.inr rfl)⟩

/-- Where a number ends: a point would belong to it. -/
def EndsNumber (cs : List Char) : Prop := EndsWord cs ∧ cs.head? ≠ some '.'

theorem reads_spells {q : ℚ} (h : Spells text q) :
    Reads EndsNumber text [.number q] (.number q) := by
  refine reads_atom ?_ (fun rest hrest => tokens_spells h hrest.1 hrest.2) rfl
  obtain ⟨c, cs, rfl, hc⟩ := h.exists_head
  exact ⟨c, cs, rfl, .inl (isScriptWordChar_of_isDigit hc)⟩

/-- A unary operator before an operand, by what it does to the characters and
the tokens after it. -/
theorem Reads.prefixed {c : Char} {sign : String} {apply : Term → Term}
    (h : Reads ends text ts t) (hends : EndsAtClose ends)
    (hsign : ∀ {cs}, StandsApart cs →
      Script.tokens (c :: cs) = (Script.tokens cs).map (.punctuator sign :: ·))
    (hoperand : ∀ n ts, readOperand (n + 1) (.punctuator sign :: ts) =
      do let (t, _, ts) ← readOperand n ts return (apply t, true, ts)) :
    ReadsInside (c :: text) (.punctuator sign :: ts) (apply t) where
  tokens rest := by
    have happend : StandsApart (text ++ ')' :: rest) := h.begins.append _
    rw [List.cons_append, hsign happend, h.tokens _ (hends rest),
      Option.map_map]
    rfl
  expression n rest hn := by
    rw [List.length_cons] at hn
    have hpos := h.length_pos
    obtain ⟨n, rfl⟩ : ∃ m, n = m + 3 := ⟨n - 3, by omega⟩
    have hstop := stops_close 0 rest
    rw [Script.readExpression, List.cons_append, hoperand,
      h.operand _ _ (by omega), hstop.members]
    exact hstop.readOperators (n + 1) (apply t) true

theorem Reads.negate (h : Reads ends text ts t) (hends : EndsAtClose ends) :
    ReadsInside ('-' :: text) (.punctuator "-" :: ts) (.negate t) :=
  h.prefixed hends tokens_minus fun n ts => by rw [readOperand, if_pos rfl]

theorem Reads.complement (h : Reads ends text ts t) (hends : EndsAtClose ends) :
    ReadsInside ('!' :: text) (.punctuator "!" :: ts) (.complement t) :=
  h.prefixed hends tokens_exclamation fun n ts => by
    rw [readOperand, if_neg (by decide), if_pos rfl]

theorem Reads.length (h : Reads ends text ts t)
    (hends : ∀ rest, ends ('.' :: rest)) :
    Reads EndsWord (text ++ ".length".toList)
      (ts ++ [.punctuator ".", .name "length"]) (.member t "length") where
  begins := h.begins.append _
  tokens rest hrest := by
    have hlength : Script.tokens ("length".toList ++ rest) =
        (Script.tokens rest).map (.name "length" :: ·) :=
      tokens_word (by decide) hrest
    have hpoint : Script.tokens ('.' :: ("length".toList ++ rest)) =
        (Script.tokens ("length".toList ++ rest)).map (.punctuator "." :: ·) :=
      tokens_lexeme rfl rfl (Nat.le_refl _)
    have hwhole := h.tokens ('.' :: ("length".toList ++ rest)) (hends _)
    rw [hpoint, hlength] at hwhole
    rw [List.append_assoc]
    refine hwhole.trans ?_
    simp [Option.map_map, Function.comp_def]
  operand n rest hn := by
    rw [List.length_append] at hn
    rw [List.append_assoc, h.operand n _ (by omega)]
    rfl

section Binary

variable {text' : List Char} {ts' : List Token} {t' : Term}
    {ends' : List Char → Prop}

/-- An operand before an operator, which is then read. -/
theorem Reads.readExpression_operator (h : Reads ends text ts t) (op : Operator)
    {limit n : Nat} (rest : List Token) (hn : 2 * ts.length ≤ n + 1) :
    Script.readExpression (n + 1) limit (ts ++ .punctuator op.text :: rest) =
      Script.readOperators n limit t false (.punctuator op.text :: rest) := by
  have hpoint : op.text ≠ "." := by cases op <;> decide
  rw [Script.readExpression, h.operand n _ hn, members_punctuator hpoint]
  rfl

theorem Reads.readOperators (h : Reads ends text ts t) {op : Operator}
    {limit : Nat} (hop : limit ≤ op.precedence) {rest : List Token}
    (hrest : Stops op.rightLimit rest) (left : Term) {n : Nat}
    (hn : 2 * ts.length ≤ n) :
    Script.readOperators (n + 1) limit left false
        (.punctuator op.text :: (ts ++ rest)) =
      Script.readOperators n limit (.binary op left t) false rest := by
  rw [Script.readOperators, Operator.ofText?_text]
  simp only [if_neg (Nat.not_lt.mpr hop), Bool.false_eq_true, and_false,
    if_false]
  rw [h.readExpression hrest hn]
  rfl

theorem Reads.binary (h : Reads ends text ts t) (h' : Reads ends' text' ts' t')
    (hends : ∀ rest, ends (' ' :: rest)) (hends' : EndsAtClose ends')
    {op : BinaryOp} {op' : Operator} (hop : op ≠ .concat)
    (htext : operatorText op = op'.text) :
    ReadsInside (text ++ ' ' :: ((operatorText op).toList ++ ' ' :: text'))
      (ts ++ .punctuator op'.text :: ts') (.binary op' t t') where
  tokens rest := by
    rw [List.append_assoc, List.cons_append, h.tokens _ (hends _), tokens_blank,
      List.append_assoc, List.cons_append, tokens_operator hop,
      h'.tokens _ (hends' rest), htext]
    simp [Option.map_map, Function.comp_def]
  expression n rest hn := by
    rw [List.length_append, List.length_cons] at hn
    have hpos := h.length_pos
    have hpos' := h'.length_pos
    obtain ⟨n, rfl⟩ : ∃ m, n = m + 3 := ⟨n - 3, by omega⟩
    rw [List.append_assoc, List.cons_append,
      h.readExpression_operator op' _ (by omega),
      h'.readOperators (Nat.zero_le _) (stops_close _ rest) t (by omega)]
    exact (stops_close 0 rest).readOperators n _ false

theorem Reads.join (h : Reads ends text ts t) (h' : Reads ends' text' ts' t')
    (hends : ∀ rest, ends (' ' :: rest)) (hends' : EndsAtClose ends') :
    ReadsInside ("\"\" + ".toList ++ (text ++ " + ".toList ++ text'))
      (.string "" :: .punctuator Operator.add.text ::
        (ts ++ .punctuator Operator.add.text :: ts'))
      (.binary .add (.binary .add (.string "") t) t') where
  tokens rest := by
    have hplus : ∀ cs, Script.tokens (" + ".toList ++ cs) =
        (Script.tokens cs).map (.punctuator Operator.add.text :: ·) := by
      intro cs
      show Script.tokens (' ' :: '+' :: ' ' :: cs) = _
      rw [tokens_blank]
      exact tokens_operator (by decide : BinaryOp.add ≠ .concat) cs
    have hempty : ∀ cs, Script.tokens ("\"\" + ".toList ++ cs) =
        (Script.tokens (" + ".toList ++ cs)).map (.string "" :: ·) :=
      fun cs => tokens_quote "" (" + ".toList ++ cs)
    have hleft := h.tokens (" + ".toList ++ (text' ++ ')' :: rest)) (hends _)
    rw [List.append_assoc, hempty, hplus, List.append_assoc, List.append_assoc,
      hleft, hplus, h'.tokens _ (hends' rest)]
    simp [Option.map_map, Function.comp_def]
  expression n rest hn := by
    simp only [List.length_append, List.length_cons] at hn
    obtain ⟨n, rfl⟩ : ∃ m, n = m + 4 := ⟨n - 4, by omega⟩
    have hempty : Reads EndsWord (quote "").toList [.string ""] (.string "") :=
      reads_quote ""
    have hplus : Stops Operator.add.rightLimit
        (.punctuator Operator.add.text :: (ts' ++ .punctuator ")" :: rest)) :=
      stops_operator (by decide) _
    show Script.readExpression (n + 4) 0
        ([.string ""] ++ .punctuator Operator.add.text ::
            (ts ++ .punctuator Operator.add.text :: ts' ++
              .punctuator ")" :: rest)) = _
    rw [hempty.readExpression_operator .add _ (by simp), List.append_assoc,
      List.cons_append, h.readOperators (Nat.zero_le _) hplus _ (by omega),
      h'.readOperators (Nat.zero_le _) (stops_close _ rest) _ (by omega)]
    exact (stops_close 0 rest).readOperators n _ false

end Binary

end Script

open Script

/-- The operator of scripts for one of the language; texts are joined by
sums. -/
def BinaryOp.counterpart : BinaryOp → Operator
  | .or => .or
  | .and => .and
  | .less => .less
  | .greater => .greater
  | .lessEqual => .lessEqual
  | .greaterEqual => .greaterEqual
  | .equal => .equal
  | .notEqual => .notEqual
  | .concat => .add
  | .add => .add
  | .sub => .sub
  | .mul => .mul
  | .div => .div
  | .mod => .mod
  | .pow => .pow

theorem operatorText_eq {op : BinaryOp} (hop : op ≠ .concat) :
    operatorText op = op.counterpart.text := by
  cases op with
  | concat => exact absurd rfl hop
  | _ => rfl

/-- Expressions made of names that are no reserved words of scripts, literals
and operators, where no number has a sign. -/
def Expr.ofOperators : Expr → Bool
  | .name x => isWord x && !reservedWords.contains x
  | .nil | .bool _ | .string _ => true
  | .number x => Number.isUnsigned x
  | .unary _ operand => operand.ofOperators
  | .binary _ left right => left.ofOperators && right.ofOperators
  | _ => false

/-- The tree that an expression has in scripts. A numeral is any rational that
is read as the number. -/
inductive Expr.Image : Expr → Term → Prop
  | name (x : String) : Image (.name x) (.name x)
  | nil : Image .nil (.name "undefined")
  | bool (b : Bool) : Image (.bool b) (.bool b)
  | number {x : Float} {q : ℚ} (h : Number.IsReadAs q x) :
      Image (.number x) (.number q)
  | infinity {x : Float} (h : x.isInf = true) :
      Image (.number x) (.name "Infinity")
  | string (text : String) : Image (.string text) (.string text)
  | neg {e : Expr} {t : Term} (h : Image e t) :
      Image (.unary .neg e) (.negate t)
  | not {e : Expr} {t : Term} (h : Image e t) :
      Image (.unary .not e) (.complement t)
  | length {e : Expr} {t : Term} (h : Image e t) :
      Image (.unary .length e) (.member t "length")
  | concat {e e' : Expr} {t t' : Term} (h : Image e t) (h' : Image e' t') :
    Image (.binary .concat e e') (.binary .add (.binary .add (.string "") t) t')
  | binary {op : BinaryOp} {e e' : Expr} {t t' : Term} (hop : op ≠ .concat)
      (h : Image e t) (h' : Image e' t') :
      Image (.binary op e e') (.binary op.counterpart t t')

def Expr.Ends : Expr → List Char → Prop
  | .number _ => EndsNumber
  | _ => EndsWord

theorem Expr.ends_of_head (e : Expr) {c : Char} {cs : List Char}
    (hc : isScriptWordChar c = false) (hpoint : c ≠ '.') :
    e.Ends (c :: cs) := by
  have hword : EndsWord (c :: cs) := by
    rintro _ ⟨⟩
    exact hc
  cases e with
  | number x => exact ⟨hword, by simpa using hpoint⟩
  | _ => exact hword

theorem Expr.endsAtClose (e : Expr) : EndsAtClose e.Ends :=
  fun _ => e.ends_of_head (by decide) (by decide)

theorem Script.Reads.mono {ends ends' : List Char → Prop} {text : List Char}
    {ts : List Token} {t : Term} (h : Reads ends text ts t)
    (hends : ∀ rest, ends' rest → ends rest) :
    Reads ends' text ts t :=
  ⟨h.begins, fun rest hrest => h.tokens rest (hends rest hrest), h.operand⟩

theorem reads_numberText {x : Float} (h : Number.isUnsigned x = true) :
    ∃ ts t, Script.Reads EndsNumber (numberText x).toList ts t ∧
      (Expr.number x).Image t := by
  unfold numberText
  cases hinf : x.isInf with
  | true =>
    have hword := reads_word (x := "Infinity") (by decide) rfl
    exact ⟨_, _, hword.mono fun _ hrest => hrest.1, .infinity hinf⟩
  | false =>
    rw [if_neg Bool.false_ne_true]
    rcases Number.plain_of_isUnsigned h hinf with ⟨htext, hreads⟩ |
        ⟨d, hpos, htext, hreads⟩
    · rw [htext]
      exact ⟨_, _, reads_spells spells_zero, .number hreads⟩
    · rw [htext]
      exact ⟨_, _, reads_spells (spells_positional hpos), .number hreads⟩

theorem Script.ReadsInside.reads_enclosed {inner : List Char} {ts : List Token}
    {t : Term} (h : ReadsInside inner ts t) (ends : List Char → Prop)
    {text : String} (htext : text.toList = '(' :: (inner ++ [')'])) :
    Script.Reads ends text.toList
      (.punctuator "(" :: (ts ++ [.punctuator ")"])) t := by
  rw [htext]
  exact h.reads.mono fun _ _ => trivial

theorem Expr.reads_lower {e : Expr} {e' : Script.Expr}
    (he : e.ofOperators = true) (h : e.lower.Gives e') (depth : Nat) :
    ∃ ts t, Script.Reads e.Ends (e'.text depth).toList ts t ∧ e.Image t := by
  cases e.lowersTo h with
  | name x =>
    rw [Expr.ofOperators, Bool.and_eq_true, Bool.not_eq_true',
      List.contains_eq_mem, decide_eq_false_iff_not] at he
    have hatom : atom? (wordToken x) = some (.name x) := by
      rw [wordToken, if_neg he.2]
      rfl
    exact ⟨_, _, reads_word he.1 hatom, .name x⟩
  | nil => exact ⟨_, _, reads_word (x := "undefined") (by decide) rfl, .nil⟩
  | bool b =>
    cases b with
    | false =>
      exact ⟨_, _, reads_word (x := "false") (by decide) rfl, .bool false⟩
    | true => exact ⟨_, _, reads_word (x := "true") (by decide) rfl, .bool true⟩
  | number x => exact reads_numberText he
  | string text => exact ⟨_, _, reads_quote text, .string text⟩
  | @unary op operand operand' hoperand =>
    obtain ⟨ts, t, hreads, himage⟩ := operand.reads_lower he hoperand depth
    have hclose := operand.endsAtClose
    cases op with
    | neg =>
      have htext : ((Script.Expr.negate operand').text depth).toList =
          '(' :: ('-' :: (operand'.text depth).toList ++ [')']) := by
        simp [Script.Expr.text]
      exact ⟨_, _, (hreads.negate hclose).reads_enclosed _ htext, .neg himage⟩
    | not =>
      have htext : ((Script.Expr.complement operand').text depth).toList =
          '(' :: ('!' :: (operand'.text depth).toList ++ [')']) := by
        simp [Script.Expr.text]
      exact ⟨_, _, (hreads.complement hclose).reads_enclosed _ htext,
        .not himage⟩
    | length =>
      -- the parentheses around a number keep the point apart from it
      have howner : ∃ (owner : Script.Expr) (ts : List Script.Token),
          lowerLength operand operand' = owner.member (.name "length") ∧
            Script.Reads EndsWord (owner.text depth).toList ts t := by
        have htext : ((Script.Expr.group operand').text depth).toList =
            '(' :: ((operand'.text depth).toList ++ [')']) := by
          simp [Script.Expr.text]
        have hgroup := (hreads.inside hclose).reads_enclosed EndsWord htext
        cases operand with
        | number x => exact ⟨_, _, rfl, hgroup⟩
        | _ => exact ⟨_, _, rfl, hreads⟩
      obtain ⟨owner, ts, howner, hreads⟩ := howner
      have htext : ((owner.member (.name "length")).text depth).toList =
          (owner.text depth).toList ++ ".length".toList := by
        simp [Script.Expr.text]
      have hpoint : ∀ rest, EndsWord ('.' :: rest) := by
        rintro rest _ ⟨⟩
        decide
      rw [lowerUnary, howner, htext]
      exact ⟨_, _, hreads.length hpoint, .length himage⟩
  | @binary op left right left' right' hleft hright =>
    rw [Expr.ofOperators, Bool.and_eq_true] at he
    obtain ⟨ts, t, hreads, himage⟩ := left.reads_lower he.1 hleft depth
    obtain ⟨ts', t', hreads', himage'⟩ := right.reads_lower he.2 hright depth
    have hblank : ∀ rest, left.Ends (' ' :: rest) :=
      fun _ => left.ends_of_head (by decide) (by decide)
    by_cases hop : op = .concat
    · subst hop
      have htext : ((left'.join right').text depth).toList =
          '(' ::
            (("\"\" + ".toList ++
                ((left'.text depth).toList ++ " + ".toList ++
                  (right'.text depth).toList)) ++
              [')']) := by
        simp [Script.Expr.text]
      exact ⟨_, _,
        (hreads.join hreads' hblank right.endsAtClose).reads_enclosed _ htext,
        .concat himage himage'⟩
    · have hlowered : lowerBinary op left' right' =
          .binary op left' right' := by
        cases op <;> first | rfl | exact absurd rfl hop
      have htext : ((Script.Expr.binary op left' right').text depth).toList =
          '(' ::
            (((left'.text depth).toList ++ ' ' ::
                ((operatorText op).toList ++ ' ' ::
                  (right'.text depth).toList)) ++
              [')']) := by
        simp [Script.Expr.text]
      have hinside :=
        hreads.binary hreads' hblank right.endsAtClose hop (operatorText_eq hop)
      rw [hlowered]
      exact ⟨_, _, hinside.reads_enclosed _ htext, .binary hop himage himage'⟩
  | _ => cases he

/-- Whatever precedes it and however deep it stands, the text of an expression
made of operators is read as its image. -/
theorem Expr.read_text {e : Expr} (he : e.ofOperators = true)
    (temporaries depth : Nat) :
    ∃ t, Script.read ((e.lower.run temporaries).1.text depth) = some t ∧
      e.Image t := by
  obtain ⟨ts, t, hreads, himage⟩ :=
    e.reads_lower he (gives_run _ temporaries) depth
  have hends : e.Ends [] := by
    cases e with
    | number x => exact ⟨nofun, nofun⟩
    | _ => exact nofun
  have htokens := hreads.tokens [] hends
  rw [List.append_nil, show Script.tokens [] = some [] by rw [Script.tokens]]
    at htokens
  have hexpression : Script.readExpression (2 * ts.length) 0 (ts ++ []) =
      some (t, []) :=
    hreads.readExpression .nil (Nat.le_refl _)
  refine ⟨t, ?_, himage⟩
  rw [Script.read, htokens]
  simp only [Option.map_some, List.append_nil, Option.bind_eq_bind,
    Option.bind_some] at hexpression ⊢
  rw [hexpression]
  rfl

/-- A power of a negated name keeps its parentheses, a number its own
before a length. -/
theorem Expr.read_text_power :
    let e : Expr := .binary .concat (.binary .pow (.unary .neg (.name "a"))
        (.binary .sub (.unary .length (.number 5)) (.number 0.5)))
      (.unary .not (.binary .equal .nil (.string "\"")))
    e.ofOperators = true ∧
      (e.lower.run 0).1.text 0 =
        "(\"\" + ((-a) ** ((5).length - 0.5)) + (!(undefined === \"\\\"\")))" ∧
      ∃ t, Script.read ((e.lower.run 0).1.text 0) = some t ∧ e.Image t := by
  intro e
  have he : e.ofOperators = true := by decide
  exact ⟨he, by decide +kernel, read_text he 0 0⟩

/-- A zero with a sign is not less than zero, but its sign is printed and may
not stand before `**`. -/
theorem Expr.not_read_text_negative_zero :
    let zero : Float := -0.0
    let e : Expr := .binary .pow (.number zero) (.number 2)
    zero.isNaN = false ∧ 0 ≤ zero ∧ (e.lower.run 0).1.text 0 = "(-0 ** 2)" ∧
      Script.read ((e.lower.run 0).1.text 0) = none := by
  intro zero e
  have htext : (e.lower.run 0).1.text 0 = "(-0 ** 2)" := by decide +kernel
  refine ⟨by decide +kernel, by decide +kernel, htext, ?_⟩
  rw [htext]
  cbv

end LuaCore
