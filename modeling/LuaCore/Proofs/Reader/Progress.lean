import LuaCore.Proofs.Reader.Mirror
import LuaCore.Proofs.Token.Order
import LuaCore.Proofs.Token.Pull

namespace LuaCore

open Reader

structure Cursor.Progresses (c d : Cursor) : Prop where
  proper : d.Proper
  ahead : ∃ taken, taken ≠ [] ∧ c.ahead = taken ++ d.ahead

namespace Reader

variable {α : Type}

/-- The loop repeats the turn, which takes a token with every item that it
gives. -/
structure Collects (bound : Nat) (loop : Nat → Reader (List α))
    (turn : Reader (Yield α)) : Prop where
  repeats : loop = items turn
  takes : ∀ {c d given}, c.Proper → c.ahead.length ≤ bound →
    turn c = .ok given d → given ≠ .stop → c.Progresses d

/-- The loop repeats the turn, which takes a token with everything that it
adds. -/
structure Extends (bound : Nat) (loop : Nat → α → Reader α)
    (turn : α → Reader (Option α)) : Prop where
  repeats : loop = lengthen turn
  takes : ∀ {a longer c d}, c.Proper → c.ahead.length ≤ bound →
    turn a c = .ok (some longer) d → c.Progresses d

end Reader

/-- Every loop of the readers takes a token in every turn but the one
that ends it. -/
structure Deeper.Advances (deeper : Deeper) (bound : Nat) : Prop where
  statements : Collects bound (stats deeper) (statTurn deeper)
  clauses : Collects bound (clauses deeper) (clauseTurn deeper)
  fields : Collects bound (fields deeper) (fieldTurn deeper)
  exprs : Collects bound (Reader.afterCommas deeper.expr)
    (commaTurn deeper.expr)
  targets : Collects bound
    (Reader.afterCommas (do assignTarget (← primary deeper)))
    (commaTurn (do assignTarget (← primary deeper)))
  names : Collects bound (Reader.afterCommas name) (commaTurn name)
  params : Collects bound (Reader.afterCommas functionBody.param)
    (commaTurn functionBody.param)
  operators : ∀ limit,
    Extends bound (operators deeper limit) (operatorTurn deeper limit)
  links : Extends bound (links deeper) (link? deeper)
  dottedNames : Extends bound dottedName dotTurn

namespace Course

variable {ts : List Token} {ending : Ending} {bound : Nat} {c d : Cursor}
    {α : Type} {a : α} {m : α → Nat}

theorem at_along (hc : c.Proper) (hbound : c.ahead.length ≤ bound) :
    (along c.ahead c.rest.ending bound).At c.ahead.length c :=
  ⟨⟨hc, rfl, List.suffix_refl _⟩, rfl, hbound⟩

theorem progresses_of_keeps (h : (along c.ahead ending bound).Keeps m (.ok a d))
    (hless : m a ≤ c.ahead.length - 1) :
    c.Progresses d := by
  obtain ⟨j, hj, ⟨hproper, -, taken, htaken⟩, rfl, -⟩ := h
  refine ⟨hproper, taken, ?_, htaken.symm⟩
  rintro rfl
  have hsame : d.ahead.length = c.ahead.length := congrArg List.length htaken
  have hpos := c.ahead_pos
  omega

end Course

namespace Pairing

variable {P : Pairing} {α : Type}

theorem TakesItems.collects {loop : Nat → Reader (List α)}
    {turn turn' : Reader (Yield α)} (h : P.TakesItems turn turn')
    (hloop : ∀ rounds, loop rounds = items turn rounds) :
    Collects P.bound loop turn where
  repeats := funext hloop
  takes {c d given} hc hbound hturn hgiven := by
    have hkeeps := (h c.ahead.length _).keeps _ (Nat.le_refl _) (Nat.le_refl _)
      (Course.at_along hc hbound) rfl
    rw [hturn] at hkeeps
    refine Course.progresses_of_keeps hkeeps ?_
    cases given with
    | stop => exact absurd rfl hgiven
    | _ => exact Nat.le_refl _

theorem TakesMore.extends {loop : Nat → α → Reader α}
    {turn turn' : α → Reader (Option α)} (h : P.TakesMore turn turn')
    (hloop : ∀ rounds a, loop rounds a = lengthen turn rounds a) :
    Extends P.bound loop turn where
  repeats := funext fun rounds => funext (hloop rounds)
  takes {a longer c d} hc hbound hturn := by
    have hkeeps := (h a c.ahead.length _).keeps _ (Nat.le_refl _)
      (Nat.le_refl _) (Course.at_along hc hbound) rfl
    rw [hturn] at hkeeps
    exact Course.progresses_of_keeps hkeeps (Nat.le_refl _)

end Pairing

theorem Deeper.Alike.advances {P : Pairing} {deeper deeper' : Deeper}
    (h : deeper.Alike P deeper') :
    deeper.Advances P.bound where
  statements := h.statTurn.collects (stats_eq deeper)
  clauses := h.clauseTurn.collects (clauses_eq deeper)
  fields := h.fieldTurn.collects (fields_eq deeper)
  exprs := (Pairing.takesItems_commaTurn h.expr).collects (afterCommas_eq _)
  targets := (Pairing.takesItems_commaTurn h.target).collects (afterCommas_eq _)
  names := (Pairing.takesItems_commaTurn Pairing.takes_name.agrees).collects
    (afterCommas_eq _)
  params := (Pairing.takesItems_commaTurn param).collects (afterCommas_eq _)
  operators limit := (h.operatorTurn limit).extends (operators_eq deeper limit)
  links := h.link?.extends (links_eq deeper)
  dottedNames := dotTurn.extends dottedName_eq

theorem Deeper.advances_ofLevels {rounds : Nat} (hpos : 0 < rounds)
    (levels : Nat) :
    (Deeper.ofLevels rounds levels).Advances rounds := by
  have halike : (Deeper.ofLevels rounds levels).Alike
      ((Mirror.same .never).pairing rounds hpos (Nat.zero_le _))
      (.ofLevels rounds levels) :=
    .ofLevels ⟨Nat.le_refl _, Nat.le_refl _⟩ levels
  exact halike.advances

/-- Tokens with the one that stands for their end written out, and
others after it. -/
def Tokens.thenMore (ts : Tokens) (p : Position) (more : Tokens) : Tokens :=
  ⟨ts.list ++ ⟨.eos, p⟩ :: more.list, more.ending⟩

def Cursor.Surpassed (p : Position) (more : Tokens) (c d : Cursor) : Prop :=
  d = { c with rest := d.rest } ∧
    (c.current.kind.isEos = false →
      c.rest.ending = .finished p ∧ d.rest = c.rest.thenMore p more)

namespace Reader

variable {p : Position} {more : Tokens} {c d : Cursor}

theorem advance_surpassed (ts : List Token)
    (h : d = { c with rest := d.rest }) :
    (advance (.finished p) ts c).Mirrors (Cursor.Surpassed p more)
      (advance more.ending (ts ++ ⟨.eos, p⟩ :: more.list) d) := by
  induction ts using significantKinds.induct generalizing c d with
  | case1 =>
    rw [h]
    exact .ok () ⟨rfl, fun hkind => Bool.noConfusion hkind⟩
  | case2 text q ts ih =>
    refine ih ?_
    rw [h]
    rfl
  | case3 t ts hkind ih =>
    rw [List.cons_append, advance.eq_4 _ _ _ _ hkind,
      advance.eq_4 _ _ _ _ hkind, h]
    exact .ok () ⟨rfl, fun _ => ⟨rfl, rfl⟩⟩

end Reader

def Mirror.surpassed (p : Position) (more : Tokens) : Mirror where
  Sees := Cursor.Surpassed p more
  exit := .never
  current := fun h => (congrArg Cursor.current h.1).symm
  afterBuild := fun _ h => ⟨by rw [h.1], h.2⟩
  afterNext := fun {c d} h hkind => by
    obtain ⟨hending, hrest⟩ := h.2 hkind
    rw [next, next, hending, hrest]
    exact .inr (advance_surpassed c.rest.list h.1)

namespace Chunk

variable {tokens : Tokens} {p : Position}

theorem closing_surpassed {more : Tokens} {c d : Cursor} (body : Block)
    (h : c.Surpassed p more d) :
    (closing body c).Mirrors (Cursor.Surpassed p more) (closing body d) := by
  rw [closing_apply, closing_apply, h.1]
  split
  · exact .ok _ ⟨rfl, h.2⟩
  · exact .error _ ⟨rfl, h.2⟩

theorem readTokens_thenMore (levels : Nat) (hend : tokens.ending = .finished p)
    (more : Tokens) :
    (readTokens levels (tokens.thenMore p more)).result =
      (readTokens levels tokens).result := by
  let rounds := (tokens.thenMore p more).list.length + 1
  have hrounds : tokens.list.length < rounds := by
    show tokens.list.length < (tokens.list ++ _ :: more.list).length + 1
    rw [List.length_append]
    omega
  rw [← chunk_eq_readTokens hrounds, readTokens, chunk_eq, bind_assoc]
  have hstart : (next (.start tokens)).Mirrors (Cursor.Surpassed p more)
      (next (.start (tokens.thenMore p more))) := by
    rw [next, next,
      show (Cursor.start tokens).rest.ending = .finished p from hend]
    exact advance_surpassed tokens.list rfl
  have halike : (Deeper.ofLevels rounds levels).Alike
      ((Mirror.surpassed p more).pairing rounds (Nat.succ_pos _)
        (Nat.zero_le _)) (.ofLevels rounds levels) :=
    .ofLevels ⟨Nat.le_refl _, Nat.le_refl _⟩ levels
  refine (hstart.bind fun hnext hsees => ?_).result
  have hblock := Mirror.replies halike.block hsees
    (Nat.le_trans (advance_left hnext) hrounds)
  exact (hblock.resolve_left Course.not_keeps_never).bind fun _ hsees =>
    closing_surpassed _ hsees

/-- Every token that is pulled takes characters, so there are no more tokens
than characters. Every turn of a loop takes a token, and no number of turns that
is large enough changes what a source is read as. The token that stands for the
end is the last one that is asked for. -/
theorem ofSource_ends (source : String) :
    (∀ p cs t q rest, Tokens.pull p cs = .token t q rest →
      ∃ used, used ≠ [] ∧ cs = used ++ rest ∧ q = p.after used) ∧
    Tokens.ofSource source = Tokens.pullAll .start source.toList ∧
    (Tokens.ofSource source).list.length ≤ source.length ∧
    (∀ rounds, (Tokens.ofSource source).list.length < rounds →
      (Reader.chunk (.ofLevels rounds maxLevels)
          (.start (Tokens.ofSource source))).result = ofSource source ∧
        ∀ levels, (Deeper.ofLevels rounds levels).Advances rounds) ∧
    ∀ p more, (Tokens.ofSource source).ending = .finished p →
      (readTokens maxLevels ((Tokens.ofSource source).thenMore p more)).result =
        ofSource source := by
  have hpulled := Tokens.ofSource_eq_pullAll source
  refine ⟨fun p cs t q rest => Tokens.pull_takes, hpulled, ?_,
    fun rounds hrounds => ⟨?_, fun levels => ?_⟩, fun p more hend => ?_⟩
  · rw [hpulled, ← String.length_toList]
    exact Tokens.length_pullAll_le _ _
  · rw [chunk_eq_readTokens hrounds]
    exact (ofSource_eq_result source).symm
  · exact Deeper.advances_ofLevels (Nat.zero_lt_of_lt hrounds) levels
  · rw [readTokens_thenMore _ hend]
    exact (ofSource_eq_result source).symm

/-- A call that is broken off is read as the same failure with any number of
turns, and whatever follows its end. -/
theorem ofSource_ends_call :
    Tokens.pull .start " f(".toList = .token ⟨.name "f", ⟨1, 2⟩⟩ ⟨1, 3⟩ ['('] ∧
    (∃ used, used ≠ [] ∧ " f(".toList = used ++ ['('] ∧
      ⟨1, 3⟩ = Position.start.after used) ∧
    (Tokens.ofSource " f(").list.length < 100 ∧
    (Reader.chunk (.ofLevels 100 maxLevels)
        (.start (Tokens.ofSource " f("))).result = ofSource " f(" ∧
    (Deeper.ofLevels 100 maxLevels).Advances 100 ∧
    (Tokens.ofSource " f(").ending = .finished ⟨1, 4⟩ ∧
    (readTokens maxLevels
        ((Tokens.ofSource " f(").thenMore ⟨1, 4⟩
          ⟨[], .broken ⟨.unfinishedString, ⟨1, 4⟩⟩⟩)).result =
      ofSource " f(" := by
  obtain ⟨hpull, -, -, hturns, hmore⟩ := ofSource_ends " f("
  have hfirst : Tokens.pull .start " f(".toList =
      .token ⟨.name "f", ⟨1, 2⟩⟩ ⟨1, 3⟩ ['('] := by decide +kernel
  have hlength : (Tokens.ofSource " f(").list.length < 100 := by decide +kernel
  have hend : (Tokens.ofSource " f(").ending = .finished ⟨1, 4⟩ := by
    decide +kernel
  obtain ⟨hsame, hadvances⟩ := hturns 100 hlength
  exact ⟨hfirst, hpull _ _ _ _ _ hfirst, hlength, hsame, hadvances maxLevels,
    hend, hmore _ _ hend⟩

end Chunk

end LuaCore
