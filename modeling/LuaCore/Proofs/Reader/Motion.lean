import LuaCore.Proofs.Reader.Expression

namespace LuaCore

def TokenKind.isEos : TokenKind → Bool
  | .eos => true
  | _ => false

theorem TokenKind.isEos_eq_false_iff {k : TokenKind} :
    k.isEos = false ↔ k ≠ .eos := by
  cases k <;> simp [isEos]

def Ending.tokens : Ending → List Token
  | finished p => [⟨.eos, p⟩]
  | broken _ => []

def Tokens.significant (ts : Tokens) : List Token :=
  ts.list.filter (·.comment?.isNone) ++ ts.ending.tokens

theorem Token.comment?_eq_none {t : Token}
    (h : ∀ text p, t ≠ ⟨.comment text, p⟩) :
    t.comment? = none := by
  obtain ⟨kind, p⟩ := t
  cases kind with
  | comment text => exact absurd rfl (h text p)
  | _ => rfl

theorem significantKinds_eq_map (ts : List Token) :
    significantKinds ts = (ts.filter (·.comment?.isNone)).map (·.kind) := by
  induction ts using significantKinds.induct with
  | case1 => rfl
  | case2 text p ts ih => exact ih
  | case3 t ts hkind ih =>
    have hcomment := Token.comment?_eq_none fun text p h => hkind text p h
    rw [significantKinds.eq_3 t ts hkind, ih]
    simp [hcomment]

theorem Tokens.map_kind_significant {ts : Tokens} {p : Position}
    (h : ts.ending = .finished p) :
    ts.significant.map (·.kind) = ts.kinds ++ [.eos] := by
  unfold significant kinds
  rw [significantKinds_eq_map, List.map_append, h]
  rfl

def Node.comment? : Node → Option Comment
  | comment c => some c
  | _ => none

namespace Cursor

def ahead (c : Cursor) : List Token :=
  if c.current.kind = .eos then [c.current] else c.current :: c.rest.significant

/-- The nodes built that are no comments, the earliest first. -/
def nodes (c : Cursor) : List Node := c.built.reverse.filter (·.comment?.isNone)

def Shown (c : Cursor) : Prop := c.built.filterMap Node.comment? = c.comments

/-- The token looked at is the end only where nothing is left. -/
structure Proper (c : Cursor) : Prop where
  noEnd : ∀ t ∈ c.rest.list, t.kind.isEos = false
  ended : c.current.kind = .eos → c.rest = ⟨[], .finished c.current.position⟩
  shown : c.Shown

/-- From one cursor to another these tokens are taken and these nodes built. -/
structure Moves (c : Cursor) (taken : List Token) (ns : List Node)
    (d : Cursor) : Prop where
  ahead : c.ahead = taken ++ d.ahead
  nodes : d.nodes = c.nodes ++ ns
  comments : d.allComments = c.allComments
  ending : d.rest.ending = c.rest.ending
  proper : d.Proper

structure Reaches (c : Cursor) (ts : Tokens) (d : Cursor) : Prop where
  ahead : d.ahead = ts.significant
  nodes : d.nodes = c.nodes
  comments : d.allComments = c.comments.reverse ++ ts.comments
  ending : d.rest.ending = ts.ending
  proper : d.Proper

variable {c d e : Cursor} {taken more : List Token} {ns ms : List Node}

theorem Moves.refl (h : c.Proper) : c.Moves [] [] c where
  ahead := rfl
  nodes := (List.append_nil _).symm
  comments := rfl
  ending := rfl
  proper := h

theorem Moves.trans (h : c.Moves taken ns d) (h' : d.Moves more ms e) :
    c.Moves (taken ++ more) (ns ++ ms) e where
  ahead := by rw [h.ahead, h'.ahead, List.append_assoc]
  nodes := by rw [h'.nodes, h.nodes, List.append_assoc]
  comments := h'.comments.trans h.comments
  ending := h'.ending.trans h.ending
  proper := h'.proper

theorem Proper.build (h : c.Proper) {node : Node}
    (hnode : node.comment? = none) :
    c.Moves [] [node] { c with built := node :: c.built } where
  ahead := rfl
  nodes := by simp [Cursor.nodes, hnode]
  comments := rfl
  ending := rfl
  proper :=
    { noEnd := h.noEnd
      ended := h.ended
      shown := (List.filterMap_cons_none hnode).trans h.shown }

theorem shown_noteComment (h : c.Shown) (text : String) (p : Position) :
    (Reader.noteComment c text p).Shown := by
  show List.filterMap Node.comment? (.comment ⟨text, p⟩ :: c.built) =
    ⟨text, p⟩ :: c.comments
  rw [List.filterMap_cons_some
    (rfl : Node.comment? (.comment ⟨text, p⟩) = some ⟨text, p⟩)]
  exact congrArg _ h

theorem nodes_noteComment (text : String) (p : Position) :
    (Reader.noteComment c text p).nodes = c.nodes := by
  simp [Cursor.nodes, Reader.noteComment, Node.comment?]

theorem ahead_of_eos (h : c.current.kind = .eos) : c.ahead = [c.current] :=
  if_pos h

theorem ahead_of_isEos (h : c.current.kind.isEos = false) :
    c.ahead = c.current :: c.rest.significant := if_neg
      (TokenKind.isEos_eq_false_iff.mp h)

theorem head?_ahead (c : Cursor) : c.ahead.head? = some c.current := by
  unfold ahead
  split <;> rfl

theorem shown_start (tokens : Tokens) : (start tokens).Shown := rfl

theorem Moves.whole {tokens : Tokens} (hreach : (start tokens).Reaches tokens c)
    (hmoves : c.Moves taken ns d) (hend : d.current.kind = .eos) :
    tokens.ending = .finished d.current.position ∧
      tokens.kinds = taken.map (·.kind) ∧
      d.comments.reverse = tokens.comments ∧ d.nodes = ns := by
  have hrest := hmoves.proper.ended hend
  have hending : tokens.ending = .finished d.current.position := by
    rw [← hreach.ending, ← hmoves.ending, hrest]
  refine ⟨hending, ?_, ?_, ?_⟩
  · have hkinds := Tokens.map_kind_significant hending
    rw [← hreach.ahead, hmoves.ahead, ahead_of_eos hend, List.map_append,
      List.map_singleton, hend] at hkinds
    exact (List.append_cancel_right hkinds).symm
  · have hall : d.allComments = tokens.comments :=
      hmoves.comments.trans hreach.comments
    rw [← hall, allComments, hrest]
    exact (List.append_nil _).symm
  · rw [hmoves.nodes, hreach.nodes]
    rfl

end Cursor

namespace Reader

open Cursor

theorem advance_reaches (ending : Ending) (ts : List Token) (c : Cursor)
    {d : Cursor} (hts : ∀ t ∈ ts, t.kind.isEos = false) (hc : c.Shown)
    (h : advance ending ts c = .ok () d) :
    c.Reaches ⟨ts, ending⟩ d := by
  induction ts using significantKinds.induct generalizing c with
  | case1 =>
    cases ending with
    | finished p =>
      cases h
      exact ⟨rfl, rfl, rfl, rfl, ⟨List.forall_mem_nil _, fun _ => rfl, hc⟩⟩
    | broken e => cases h
  | case2 text p ts ih =>
    have hrest :=
      ih (noteComment c text p) (fun t ht => hts t (List.mem_cons_of_mem _ ht))
        (shown_noteComment hc text p) h
    exact
      { ahead := hrest.ahead
        nodes := hrest.nodes.trans (nodes_noteComment text p)
        comments := by
          rw [hrest.comments]
          simp [noteComment, Tokens.comments, Token.comment?]
        ending := hrest.ending
        proper := hrest.proper }
  | case3 t ts hkind ih =>
    have hcomment := Token.comment?_eq_none fun text p h => hkind text p h
    rw [advance.eq_4 _ _ _ _ hkind] at h
    cases h
    have ht : t.kind.isEos = false := hts t List.mem_cons_self
    exact
      { ahead := by rw [ahead_of_isEos ht]; simp [Tokens.significant, hcomment]
        nodes := rfl
        comments := by simp [allComments, Tokens.comments, hcomment]
        ending := rfl
        proper :=
          { noEnd := fun t' ht' => hts t' (List.mem_cons_of_mem _ ht')
            ended := fun hend =>
              absurd hend (TokenKind.isEos_eq_false_iff.mp ht)
            shown := hc } }

theorem next_moves {c d : Cursor} (hc : c.Proper)
    (hkind : c.current.kind.isEos = false) (h : next c = .ok () d) :
    c.Moves [c.current] [] d := by
  have hreach := advance_reaches c.rest.ending c.rest.list c hc.noEnd hc.shown h
  exact
    { ahead := by rw [ahead_of_isEos hkind, hreach.ahead, List.singleton_append]
      nodes := hreach.nodes.trans (List.append_nil _).symm
      comments := hreach.comments
      ending := hreach.ending
      proper := hreach.proper }

theorem exists_next {c : Cursor} {p : Position}
    (h : c.rest.ending = .finished p) :
    ∃ d, next c = .ok () d := by
  obtain ⟨d, hrun, -⟩ := advance_finished p c.rest.list c
  rw [next, h]
  exact ⟨d, hrun⟩

theorem closing_apply (body : Block) (c : Cursor) :
    closing body c =
      if c.current.kind = .eos then
        .ok ⟨body, c.comments.reverse⟩
          { c with built := .chunk ⟨body, c.comments.reverse⟩ :: c.built }
      else .error (.grammatical ⟨.expected .eos, c.current⟩) c := by
  have hcheck : check .eos c = .ok (decide (c.current.kind = .eos)) c := rfl
  rw [closing, bind_apply, hcheck]
  by_cases hend : c.current.kind = .eos
  · rw [decide_eq_true hend, if_pos hend]
    rfl
  · rw [decide_eq_false hend, if_neg hend]
    rfl

theorem closing_eq_ok {body : Block} {c d : Cursor} {program : Chunk}
    (h : closing body c = .ok program d) :
    c.current.kind = .eos ∧ program = ⟨body, c.comments.reverse⟩ ∧
      d = { c with built := .chunk program :: c.built } := by
  rw [closing_apply] at h
  split at h
  · next hend =>
    cases h
    exact ⟨hend, rfl, rfl⟩
  · cases h

end Reader

end LuaCore
