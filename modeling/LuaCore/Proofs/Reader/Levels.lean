import LuaCore.Proofs.Reader.LeftChain
import LuaCore.Proofs.Reader.Mirror

/-! Readers that count the open levels, as notes among the nodes, reply like
those that are told how many levels are left. -/

namespace LuaCore

open Reader Pairing

namespace Node

def reading (n : Nat) : Node := .chunk ⟨.replicate n .break, []⟩

def reading? : Node → Option Nat
  | chunk c => some c.body.length
  | _ => none

theorem reading?_reading (n : Nat) : (reading n).reading? = some n :=
  congrArg some List.length_replicate

theorem reading?_of_isPart {node : Node} (h : node.isPart = true) :
    node.reading? = none := by
  cases node with
  | chunk c => cases h
  | _ => rfl

end Node

namespace Cursor

/-- The readings of the counter, the latest first. -/
def readings (c : Cursor) : List Nat := c.built.filterMap Node.reading?

/-- How many levels are open. -/
def levels (c : Cursor) : Nat := c.readings.headD 0

def setLevels (n : Nat) (c : Cursor) : Cursor :=
  { c with built := .reading n :: c.built }

/-- The cursor without the notes of the counter. -/
def uncounted (c : Cursor) : Cursor :=
  { c with built := c.built.filter (·.reading?.isNone) }

variable {c d : Cursor} {n limit levels : Nat} {base : List Nat}

theorem readings_setLevels (n : Nat) (c : Cursor) :
    (c.setLevels n).readings = n :: c.readings :=
  List.filterMap_cons_some (Node.reading?_reading n)

theorem levels_setLevels (n : Nat) (c : Cursor) :
    (c.setLevels n).levels = n := by
  rw [Cursor.levels, readings_setLevels]
  rfl

theorem uncounted_setLevels (n : Nat) (c : Cursor) :
    (c.setLevels n).uncounted = c.uncounted := by
  simp [uncounted, setLevels, Node.reading?_reading]

/-- The cursor on the right counts so many levels, and has noted none beyond the
limit since some readings. -/
structure Counts (limit levels : Nat) (base : List Nat) (c d : Cursor) :
    Prop where
  uncounted : c = d.uncounted
  levels : d.levels = levels
  since : ∃ noted, d.readings = noted ++ base ∧ ∀ n ∈ noted, n ≤ limit

theorem Counts.setLevels (h : Counts limit levels base c d) (hn : n ≤ limit) :
    Counts limit n base c (d.setLevels n) where
  uncounted := h.uncounted.trans (uncounted_setLevels n d).symm
  levels := levels_setLevels n d
  since := by
    obtain ⟨noted, hnoted, hlimit⟩ := h.since
    exact ⟨n :: noted, (readings_setLevels n d).trans (congrArg _ hnoted),
      List.forall_mem_cons.mpr ⟨hn, hlimit⟩⟩

theorem Counts.of_readings {c' d' : Cursor} (h : Counts limit levels base c d)
    (huncounted : c' = d'.uncounted) (hreadings : d'.readings = d.readings) :
    Counts limit levels base c' d' where
  uncounted := huncounted
  levels := (congrArg (·.headD 0) hreadings).trans h.levels
  since := hreadings ▸ h.since

theorem Counts.build {node : Node} (hnode : node.isPart = true)
    (h : Counts limit levels base c d) :
    Counts limit levels base { c with built := node :: c.built }
      { d with built := node :: d.built } := by
  have hreading := Node.reading?_of_isPart hnode
  refine h.of_readings ?_ (List.filterMap_cons_none hreading)
  rw [h.uncounted]
  simp [Cursor.uncounted, hreading]

end Cursor

namespace Reader

theorem advance_uncounted (ending : Ending) (ts : List Token) (d : Cursor) :
    (advance ending ts d.uncounted).Mirrors (fun c e => c = e.uncounted ∧
        e.readings = d.readings) (advance ending ts d) := by
  induction ts using significantKinds.induct generalizing d with
  | case1 =>
    cases ending with
    | finished p => exact .ok () ⟨rfl, rfl⟩
    | broken e => exact .error _ ⟨rfl, rfl⟩
  | case2 text p ts ih =>
    have hnote : noteComment d.uncounted text p =
        (noteComment d text p).uncounted := by
      simp [noteComment, Cursor.uncounted, Node.reading?]
    have hreadings : (noteComment d text p).readings = d.readings := rfl
    have hrest := ih (noteComment d text p)
    rw [hreadings, ← hnote] at hrest
    exact hrest
  | case3 t ts hkind ih =>
    rw [advance.eq_4 _ _ _ _ hkind, advance.eq_4 _ _ _ _ hkind]
    exact .ok () ⟨rfl, rfl⟩

theorem uncounted_of_first {tokens : Tokens} {c : Cursor}
    (h : next (.start tokens) = .ok () c) :
    c = c.uncounted ∧ c.readings = [] := by
  have hmirrors := advance_uncounted tokens.ending tokens.list (.start tokens)
  rw [show Cursor.uncounted (.start tokens) = .start tokens from rfl,
    show advance tokens.ending tokens.list (.start tokens) =
      .ok () c from h] at hmirrors
  cases hmirrors with
  | ok _ hsees => exact hsees

/-- Counts one level more while a reader runs, unless that would be
beyond the limit. -/
def nested {α : Type} (limit : Nat) (p : Reader α) : Reader α := fun c =>
  if limit ≤ c.levels then fail .tooDeep c
  else
    match p (c.setLevels (c.levels + 1)) with
    | .ok a d => .ok a (d.setLevels (d.levels - 1))
    | .error e d => .error e (d.setLevels (d.levels - 1))

end Reader

namespace Reply

variable {α : Type}

def cursor : Reply α → Cursor
  | ok _ c => c
  | error _ c => c

def uncounted : Reply α → Reply α
  | ok a c => .ok a c.uncounted
  | error e c => .error e c.uncounted

end Reply

/-- The cursor on the left is the one on the right without the notes of
its counter. -/
def Mirror.counting (limit levels : Nat) (base : List Nat) : Mirror where
  Sees := Cursor.Counts limit levels base
  exit := .never
  current h := congrArg (·.current) h.uncounted
  afterBuild := Cursor.Counts.build
  afterNext := fun {_ d} h _ => by
    obtain rfl := h.uncounted
    exact .inr ((advance_uncounted d.rest.ending d.rest.list d).imp
        fun _ _ hnext => h.of_readings hnext.1 hnext.2)

namespace Pairing

def counting (bound : Nat) (hpos : 0 < bound) (limit levels : Nat)
    (base : List Nat) : Pairing :=
  (Mirror.counting limit levels base).pairing bound hpos (Nat.zero_le _)

variable {α : Type} {bound limit levels n : Nat} {hpos : 0 < bound}
    {base : List Nat} {m : α → Nat}
variable {p q : Reader α}

theorem within_refused (hlevels : limit ≤ levels) (q : Reader α) :
    (counting bound hpos limit levels base).Within n m (fail .tooDeep)
      (nested limit q) := fun _ =>
  { replies := fun _ c d _ hlevel _ => by
      have hrefused : nested limit q d = fail .tooDeep d :=
        if_pos (hlevel.1.levels ▸ hlevels)
      rw [hrefused]
      exact .inr ((counting bound hpos limit levels base).fails hlevel .tooDeep
          .tooDeep fun _ => rfl)
    keeps := fun S _ _ _ _ hat _ => S.fails hat .tooDeep }

/-- What counts one level more while it runs has counted it down again when
it replies. -/
theorem within_nested (hlevels : levels < limit)
    (h : (counting bound hpos limit (levels + 1) base).Within n m p q) :
    (counting bound hpos limit levels base).Within n m p
      (nested limit q) := fun k =>
  { replies := fun j c d hj hlevel hk => by
      obtain ⟨hcounts, hleft⟩ := hlevel
      have hentered : nested limit q d =
          match q (d.setLevels (levels + 1)) with
          | .ok a d' => .ok a (d'.setLevels (d'.levels - 1))
          | .error e d' => .error e (d'.setLevels (d'.levels - 1)) := by
        rw [← hcounts.levels] at hlevels ⊢
        exact if_neg (Nat.not_le.mpr hlevels)
      have left : ∀ {c' d'}, Cursor.Counts limit (levels + 1) base c' d' →
          Cursor.Counts limit levels base c'
            (d'.setLevels (d'.levels - 1)) := by
        intro c' d' hcounts'
        rw [hcounts'.levels]
        exact hcounts'.setLevels (Nat.le_of_lt hlevels)
      rw [hentered]
      refine ((h k).replies hj ⟨hcounts.setLevels hlevels, hleft⟩ hk).imp_right
        fun hmatch => ?_
      revert hmatch
      cases p c with
      | ok a c' =>
        cases q (d.setLevels (levels + 1)) with
        | ok b d' =>
          exact fun ⟨heq, i, hi, hcounts', hleft'⟩ =>
            ⟨heq, i, hi, left hcounts', hleft'⟩
        | error e' d' => exact id
      | error e c' =>
        cases q (d.setLevels (levels + 1)) with
        | ok b d' => exact id
        | error e' d' => exact fun ⟨heq, hcounts'⟩ => ⟨heq, left hcounts'⟩
    keeps := (h k).keeps }

end Pairing

namespace Deeper

/-- Readers that count their levels up to a limit. They recur so often at most,
and are then left to others. -/
def counting (limit : Nat) (others : Deeper) : Nat → Deeper
  | 0 => others
  | depth + 1 =>
    let deeper := counting limit others depth
    ⟨nested limit (Reader.block deeper),
      fun bound => nested limit (Reader.operand deeper bound), others.rounds⟩

/-- Readers whose replies come without the notes of the counter. -/
def uncounted (deeper : Deeper) : Deeper :=
  ⟨fun c => (deeper.block c).uncounted,
    fun bound c => (deeper.operand bound c).uncounted, deeper.rounds⟩

variable {limit levels depth rounds bound : Nat} {others : Deeper}
    {hpos : 0 < bound} {base : List Nat}

theorem counting_rounds (limit : Nat) (others : Deeper) (depth : Nat) :
    (counting limit others depth).rounds = others.rounds := by
  cases depth <;> rfl

theorem Alike.counting (hdepth : limit - levels < depth)
    (hrounds : bound ≤ rounds ∧ bound ≤ others.rounds) :
    (Deeper.ofLevels rounds (limit - levels)).Alike
      (.counting bound hpos limit levels base)
      (Deeper.counting limit others depth) := by
  induction depth generalizing levels with
  | zero => exact absurd hdepth (Nat.not_lt_zero _)
  | succ depth ih =>
    by_cases hlevels : levels < limit
    · obtain ⟨more, hmore⟩ : ∃ more, limit - levels = more + 1 :=
        ⟨limit - levels - 1, by omega⟩
      have hsame : limit - (levels + 1) = more := by omega
      have hih : (Deeper.ofLevels rounds more).Alike
          (.counting bound hpos limit (levels + 1) base)
          (Deeper.counting limit others depth) := hsame ▸ ih (by omega)
      rw [hmore]
      exact
        { block := fun n => within_nested hlevels (hih.readBlock n)
          operand := fun bound n =>
            within_nested hlevels (hih.readOperand bound n)
          rounds := hrounds }
    · have hlimit := Nat.not_lt.mp hlevels
      rw [Nat.sub_eq_zero_of_le hlimit]
      exact
        { block := fun n => within_refused hlimit _
          operand := fun bound n => within_refused hlimit _
          rounds := hrounds }

end Deeper

/-! What counting changes: nothing but the notes, and they end as they began. -/

namespace Reply

variable {α : Type}

theorem Mirrors.counts {limit levels : Nat} {base : List Nat} {r r' : Reply α}
    (h : r.Mirrors (Cursor.Counts limit levels base) r') :
    r'.uncounted = r ∧ ∃ c, Cursor.Counts limit levels base c r'.cursor := by
  cases h with
  | ok a hcounts => exact ⟨by rw [hcounts.uncounted, uncounted], _, hcounts⟩
  | error e hcounts => exact ⟨by rw [hcounts.uncounted, uncounted], _, hcounts⟩

end Reply

namespace Reader

/-- From a cursor at some token a reader comes, with a value or a failure, to as
many open levels as there were. -/
def KeepsLevelsAt {α : Type} (rounds : Nat) (k : TokenKind) (p : Reader α) :
    Prop :=
  ∀ c : Cursor, c.left ≤ rounds → c.current.kind = k →
    (p c).cursor.levels = c.levels

def KeepsLevels {α : Type} (rounds : Nat) (p : Reader α) : Prop :=
  ∀ k, KeepsLevelsAt rounds k p

variable {α : Type} {limit bound : Nat} {k : TokenKind} {q : Reader α}

theorem counts_of_at {p : Reader α} {c : Cursor} {m : α → Nat}
    {hpos : 0 < bound} (hbound : c.left ≤ bound)
    (h : (Pairing.counting bound hpos limit c.levels c.readings).At c.left
      c.current.kind m p q) :
    (q c).uncounted = p c.uncounted ∧
      ∃ e, Cursor.Counts limit c.levels c.readings e (q c).cursor := by
  have hcounts : Cursor.Counts limit c.levels c.readings c.uncounted c :=
    ⟨rfl, rfl, [], rfl, List.forall_mem_nil _⟩
  have hreply := h.replies (Nat.le_refl _) ⟨hcounts, rfl, hbound⟩ rfl
  exact (Mirror.mirrors_of_matches
    (hreply.resolve_left Course.not_keeps_never)).counts

theorem keepsLevelsAt_of (hpos : 0 < bound) (limit : Nat) {m : Nat → α → Nat}
    (h : ∀ {levels base n}, ∃ p,
      (Pairing.counting bound hpos limit levels base).At n k (m n) p q) :
    KeepsLevelsAt bound k q := by
  rintro c hbound rfl
  obtain ⟨p, hp⟩ := h
  obtain ⟨-, e, hcounts⟩ := counts_of_at hbound hp
  exact hcounts.levels

theorem keepsLevels_of (hpos : 0 < bound) (limit : Nat)
    (h : ∀ {levels base}, ∃ p,
      (Pairing.counting bound hpos limit levels base).Agrees p q) :
    KeepsLevels bound q :=
  fun k =>
  keepsLevelsAt_of hpos limit fun {_ _ n} => h.imp fun _ hp => hp n k

end Reader

/-- Every reader leaves the counter of the open levels as it was, on success and
on failure. Some readers are called only at the token that their construct
starts with. -/
structure Deeper.Balanced (deeper : Deeper) : Prop where
  block : KeepsLevels deeper.rounds deeper.block
  statements : KeepsLevels deeper.rounds (Reader.block deeper)
  stat : KeepsLevels deeper.rounds (stat deeper)
  returnStat : KeepsLevelsAt deeper.rounds (.keyword .return)
    (returnStat deeper)
  functionStat : KeepsLevelsAt deeper.rounds (.keyword .function)
    (functionStat deeper)
  dottedName : ∀ target,
    KeepsLevels deeper.rounds (dottedName deeper.rounds target)
  functionBody : ∀ isMethod line,
    KeepsLevels deeper.rounds (functionBody deeper isMethod line)
  param : KeepsLevels deeper.rounds Reader.functionBody.param
  localStat : ∀ line,
    KeepsLevelsAt deeper.rounds (.keyword .local) (localStat deeper line)
  ifStat : KeepsLevelsAt deeper.rounds (.keyword .if) (ifStat deeper)
  branch : KeepsLevels deeper.rounds (branch deeper)
  clauses : KeepsLevels deeper.rounds (clauses deeper deeper.rounds)
  forStat : KeepsLevelsAt deeper.rounds (.keyword .for) (forStat deeper)
  rangeLoop : ∀ x line,
    KeepsLevelsAt deeper.rounds (.symbol .assign) (rangeLoop deeper x line)
  eachLoop : ∀ x line, KeepsLevels deeper.rounds (eachLoop deeper x line)
  loopBody : ∀ opener line,
    KeepsLevels deeper.rounds (loopBody deeper opener line)
  exprStat : KeepsLevels deeper.rounds (exprStat deeper)
  assignTarget : ∀ e, KeepsLevels deeper.rounds (assignTarget e)
  exprs : KeepsLevels deeper.rounds deeper.exprs
  operand : ∀ limit, KeepsLevels deeper.rounds (deeper.operand limit)
  operators : ∀ limit, KeepsLevels deeper.rounds (Reader.operand deeper limit)
  unary : KeepsLevels deeper.rounds (unary deeper)
  simple : KeepsLevels deeper.rounds (simple deeper)
  primary : KeepsLevels deeper.rounds (primary deeper)
  prefixExpr : KeepsLevels deeper.rounds (prefixExpr deeper)
  link : ∀ e, KeepsLevels deeper.rounds (link? deeper e)
  arguments : KeepsLevels deeper.rounds (arguments deeper)
  table : KeepsLevels deeper.rounds (table deeper)
  fields : KeepsLevels deeper.rounds (fields deeper deeper.rounds)
  field : KeepsLevels deeper.rounds (field deeper)

theorem Deeper.counting_balanced {limit depth : Nat} {others : Deeper}
    (hdepth : limit < depth) (hrounds : 0 < others.rounds) :
    (Deeper.counting limit others depth).Balanced := by
  have hsame := Deeper.counting_rounds limit others depth
  have hpos : 0 < (Deeper.counting limit others depth).rounds := hsame ▸ hrounds
  have alike : ∀ {levels base}, (Deeper.ofLevels _ (limit - levels)).Alike
      (.counting _ hpos limit levels base)
      (Deeper.counting limit others depth) :=
    .counting (by omega) ⟨Nat.le_refl _, Nat.le_of_eq hsame⟩
  exact
    { block := keepsLevels_of hpos limit ⟨_, alike.block⟩
      statements := keepsLevels_of hpos limit ⟨_, alike.readBlock⟩
      stat := keepsLevels_of hpos limit ⟨_, alike.stat.agrees⟩
      returnStat := keepsLevelsAt_of hpos limit ⟨_, alike.returnStat⟩
      functionStat := keepsLevelsAt_of hpos limit ⟨_, alike.functionStat⟩
      dottedName := fun target =>
        keepsLevels_of hpos limit ⟨_, Alike.dottedName alike.rounds target⟩
      functionBody := fun isMethod line =>
        keepsLevels_of hpos limit ⟨_, alike.functionBody isMethod fun _ => rfl⟩
      param := keepsLevels_of hpos limit ⟨_, Alike.param⟩
      localStat := fun line =>
        keepsLevelsAt_of hpos limit ⟨_, alike.localStat fun _ => rfl⟩
      ifStat := keepsLevelsAt_of hpos limit ⟨_, alike.ifStat⟩
      branch := keepsLevels_of hpos limit ⟨_, alike.branch⟩
      clauses := keepsLevels_of hpos limit ⟨_, alike.clauses⟩
      forStat := keepsLevelsAt_of hpos limit ⟨_, alike.forStat⟩
      rangeLoop := fun x line =>
        keepsLevelsAt_of hpos limit ⟨_, alike.rangeLoop x fun _ => rfl⟩
      eachLoop := fun x line =>
        keepsLevels_of hpos limit ⟨_, alike.eachLoop x fun _ => rfl⟩
      loopBody := fun opener line =>
        keepsLevels_of hpos limit ⟨_, alike.loopBody opener fun _ => rfl⟩
      exprStat := keepsLevels_of hpos limit ⟨_, alike.exprStat.agrees⟩
      assignTarget := fun e =>
        keepsLevels_of hpos limit ⟨_, Alike.assignTarget e⟩
      exprs := keepsLevels_of hpos limit ⟨_, alike.exprs⟩
      operand := fun bound =>
        keepsLevels_of hpos limit ⟨_, (alike.operand bound).agrees⟩
      operators := fun bound =>
        keepsLevels_of hpos limit ⟨_, (alike.readOperand bound).agrees⟩
      unary := keepsLevels_of hpos limit ⟨_, alike.unary.agrees⟩
      simple := keepsLevels_of hpos limit ⟨_, alike.simple.agrees⟩
      primary := keepsLevels_of hpos limit ⟨_, alike.primary.agrees⟩
      prefixExpr := keepsLevels_of hpos limit ⟨_, alike.prefixExpr.agrees⟩
      link := fun e k => keepsLevelsAt_of hpos limit ⟨_, alike.link? e _ k⟩
      arguments := keepsLevels_of hpos limit ⟨_, alike.arguments.agrees⟩
      table := keepsLevels_of hpos limit ⟨_, alike.table.agrees⟩
      fields := keepsLevels_of hpos limit ⟨_, alike.fields⟩
      field := keepsLevels_of hpos limit ⟨_, alike.field.agrees⟩ }

namespace Chunk

/-- A program is read alike by readers that count, and they never note more
levels than the limit. -/
theorem readTokens_eq_counting {tokens : Tokens} {limit depth : Nat}
    {others : Deeper} (hdepth : limit < depth)
    (hrounds : others.rounds = tokens.list.length + 1) :
    readTokens limit tokens = Reader.chunk
        (Deeper.counting limit others depth).uncounted (.start tokens) ∧
      ∀ c, next (.start tokens) = .ok () c →
        ∀ n ∈ ((Deeper.counting limit others depth).block c).cursor.readings,
          n ≤ limit := by
  have hblock : ∀ c, next (.start tokens) = .ok () c →
      ((Deeper.counting limit others depth).block c).uncounted =
        (Deeper.ofLevels (tokens.list.length + 1) limit).block c ∧
      ∀ n ∈ ((Deeper.counting limit others depth).block c).cursor.readings, n ≤
        limit := by
    intro c hc
    have hstart := uncounted_of_first hc
    have hlevels : c.levels = 0 := congrArg (·.headD 0) hstart.2
    have halike :
        (Deeper.ofLevels (tokens.list.length + 1) (limit - c.levels)).Alike
          (.counting (tokens.list.length + 1) (Nat.succ_pos _) limit c.levels
            c.readings) (Deeper.counting limit others depth) :=
      .counting (by omega) ⟨Nat.le_refl _, Nat.le_of_eq hrounds.symm⟩
    obtain ⟨hsame, e, hcounts⟩ :=
      counts_of_at (advance_left hc) (halike.block c.left c.current.kind)
    rw [hlevels, Nat.sub_zero, ← hstart.1] at hsame
    obtain ⟨noted, hnoted, hlimit⟩ := hcounts.since
    rw [hstart.2, List.append_nil] at hnoted
    exact ⟨hsame, hnoted ▸ hlimit⟩
  refine ⟨?_, fun c hc => (hblock c hc).2⟩
  rw [readTokens]
  cases hnext : next (.start tokens) with
  | error e c => rw [chunk_of_next_error hnext, chunk_of_next_error hnext]
  | ok u c =>
    rw [chunk_of_next hnext, chunk_of_next hnext, bind_apply, bind_apply,
      ← (hblock c hnext).1]
    rfl

/-- Levels are a budget and nothing else. What is read without want for them is
read alike with more. The readers that count them reply alike, never have more
open than the limit and leave the counter as it was. Links to the right of an
expression take none, however many there are. -/
theorem levels_only_refuse :
    (∀ (tokens : Tokens) (limit more : Nat), limit ≤ more →
      (∀ t c, readTokens limit tokens ≠ .error (.grammatical ⟨.tooDeep, t⟩) c) →
      readTokens more tokens = readTokens limit tokens) ∧
    (∀ (tokens : Tokens) (limit depth : Nat) (others : Deeper), limit < depth →
      others.rounds = tokens.list.length + 1 →
      readTokens limit tokens =
          Reader.chunk (Deeper.counting limit others depth).uncounted
            (.start tokens) ∧
        (∀ c, next (.start tokens) = .ok () c →
          ∀ n ∈ ((Deeper.counting limit others depth).block c).cursor.readings,
            n ≤ limit) ∧
        (Deeper.counting limit others depth).Balanced) ∧
    (∀ (op : BinaryOp) (x y : String), op.isRightAssoc = false →
      ReturnsChain 3 x [op.token, .name y] (.operated op y)) ∧
    (∀ x y : String, ReturnsChain 2 x [.symbol .dot, .name y] (.selected y)) ∧
    (∀ x : String,
      ReturnsChain 2 x [.symbol .leftParen, .symbol .rightParen] .called) := by
  refine ⟨fun _ _ _ hle h => readTokens_of_le hle h,
    fun tokens limit depth others hdepth hrounds => ?_,
    fun op x y hop => returnsChain_operated hop x y, returnsChain_selected,
    returnsChain_called⟩
  obtain ⟨hsame, hreadings⟩ := readTokens_eq_counting hdepth hrounds
  exact ⟨hsame, hreadings, Deeper.counting_balanced hdepth (by omega)⟩

/-- Two fields of a name, with more levels than they take and with a counter. -/
theorem levels_only_refuse_fields :
    let tokens : Tokens :=
      ⟨[⟨.keyword .return, ⟨1, 1⟩⟩, ⟨.name "a", ⟨1, 8⟩⟩, ⟨.symbol .dot, ⟨1, 9⟩⟩,
          ⟨.name "b", ⟨1, 10⟩⟩, ⟨.symbol .dot, ⟨1, 11⟩⟩, ⟨.name "b", ⟨1, 12⟩⟩],
        .finished ⟨1, 13⟩⟩
    let others : Deeper := .ofLevels 7 0
    (∃ c, readTokens 2 tokens = .ok ⟨[.return
            [.member (.member (.name "a") .dot (.name "b")) .dot (.name "b")]],
          []⟩ c) ∧
    readTokens 200 tokens = readTokens 2 tokens ∧
    readTokens 2 tokens =
      Reader.chunk (Deeper.counting 2 others 3).uncounted (.start tokens) ∧
    (Deeper.counting 2 others 3).Balanced ∧
    ReturnsChain 3 "a" [.symbol .plus, .name "a"] (.operated .add "a") := by
  intro tokens others
  obtain ⟨hmore, hcounting, hoperated, hselected, -⟩ := levels_only_refuse
  obtain ⟨c, hread⟩ := hselected "a" "b" 2 tokens ⟨rfl, _, rfl⟩
  obtain ⟨hsame, -, hbalanced⟩ := hcounting tokens 2 3 others (by decide) rfl
  refine ⟨⟨c, hread⟩, hmore tokens 2 200 (by decide) (fun t d h => ?_), hsame,
    hbalanced, hoperated .add "a" "a" rfl⟩
  rw [hread] at h
  cases h

end Chunk

end LuaCore
