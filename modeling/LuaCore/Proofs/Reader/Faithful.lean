import LuaCore.Proofs.Reader.Trace
import LuaCore.Proofs.Token.Order
import LuaCore.Proofs.Tree.Rebuild

namespace LuaCore

open Reader

namespace Chunk

structure Accounts (source : String) (c : Chunk) : Prop where
  finished : ∃ p, (Tokens.ofSource source).ending = .finished p
  spells : Spells (Tokens.ofSource source).kinds (blockPieces c.body)
  comments : c.comments = (Tokens.ofSource source).comments
  nodes : (nodesBuilt source).filter (·.comment?.isNone) =
    statNodes c.body ++ [.block c.body, .chunk c]
  shown : (nodesBuilt source).filterMap Node.comment? = c.comments

variable {source : String} {c : Chunk}

theorem read_of_ofSource (h : ofSource source = .ok c) :
    ∃ last, read source = .ok c last := by
  unfold ofSource at h
  split at h
  · next c' last hread =>
    cases h
    exact ⟨last, hread⟩
  · cases h

theorem accounts_of_ofSource (h : ofSource source = .ok c) :
    c.Accounts source := by
  obtain ⟨last, hread⟩ := read_of_ofSource h
  have hbuilt : nodesBuilt source = last.built.reverse := by
    rw [nodesBuilt, hread]
  have hfaithful := Deeper.Faithful.ofLevels
    ((Tokens.ofSource source).list.length + 1) maxLevels
  rw [read, readTokens, chunk_eq] at hread
  obtain ⟨body, d, hbody, hclosing⟩ := bind_eq_ok.mp hread
  obtain ⟨⟨⟩, first, hnext, hblock⟩ := bind_eq_ok.mp hbody
  have hreach := Tokens.ofSource_reaches hnext
  obtain ⟨v, ⟨taken, hmoves, hspells⟩, hv⟩ :=
    hfaithful.block _ hreach.proper rfl hblock
  rw [Trace.empty_append] at hv
  subst hv
  obtain ⟨hend, rfl, rfl⟩ := closing_eq_ok hclosing
  obtain ⟨hending, hkinds, hcomments, hnodes⟩ := hmoves.whole hreach hend
  exact
    { finished := ⟨_, hending⟩
      spells := hkinds ▸ hspells
      comments := hcomments
      nodes := by
        rw [hbuilt, List.reverse_cons, List.filter_append, ← Cursor.nodes,
          hnodes, blockTrace_nodes, List.append_assoc]
        rfl
      shown := by
        rw [hbuilt, List.reverse_cons, List.filterMap_append,
          List.filterMap_reverse, hmoves.proper.shown]
        exact List.append_nil _ }

theorem exists_of_isOk (h : (ofSource source).isOk = true) :
    ∃ c, ofSource source = .ok c := by
  cases hread : ofSource source with
  | ok c => exact ⟨c, rfl⟩
  | error e =>
    rw [hread] at h
    cases h

theorem exists_of_any {p : Chunk → Bool}
    (h : (ofSource source).toOption.any p = true) :
    ∃ c, ofSource source = .ok c ∧ p c = true := by
  cases hread : ofSource source with
  | ok c =>
    rw [hread] at h
    exact ⟨c, rfl, h⟩
  | error e =>
    rw [hread] at h
    cases h

/-- Punctuation aside, the tokens of a source that is read are those of the
program that it expresses, written out: both spell the same pieces, in which
only the step 1 of a loop may be left out. -/
theorem spelled_of_ofSource (h : ofSource source = .ok c) :
    Spelled ((Tokens.ofSource source).kinds.filter (!·.isPunctuation))
      (blockPieces c.body) ∧
    Spelled ((blockText c.body).filter (!·.isPunctuation))
      (blockPieces c.body) :=
  ⟨(accounts_of_ofSource h).spells, blockSpells c.body⟩

/-- The `self` of a method and the step of its loop are not written, and
parentheses are dropped. -/
theorem spelled_of_method :
    let source := "function o:m(a) for i = (a), self do f(i); end end -- done"
    ∃ c, ofSource source = .ok c ∧
      Spelled [.keyword .function, .name "o", .symbol .colon, .name "m",
          .name "a", .keyword .for, .name "i", .symbol .assign, .name "a",
          .name "self", .keyword .do, .name "f", .name "i", .keyword .end,
          .keyword .end] (blockPieces c.body) ∧
      Spelled ((blockText c.body).filter (!·.isPunctuation))
        (blockPieces c.body) := by
  intro source
  obtain ⟨c, hsource⟩ : ∃ c, ofSource source = .ok c :=
    exists_of_isOk (by decide +kernel)
  have hkinds : (Tokens.ofSource source).kinds.filter (!·.isPunctuation) =
      [.keyword .function, .name "o", .symbol .colon, .name "m", .name "a",
        .keyword .for, .name "i", .symbol .assign, .name "a", .name "self",
        .keyword .do, .name "f", .name "i", .keyword .end, .keyword .end] := by
    decide +kernel
  obtain ⟨hread, hwritten⟩ := spelled_of_ofSource hsource
  exact ⟨c, hsource, hkinds ▸ hread, hwritten⟩

/-- The nodes that are built while a source is read are those of the program,
each once and after its parts, with the comments among them; building the
program anew builds the same nodes in the same order. -/
theorem nodesBuilt_of_ofSource (h : ofSource source = .ok c) :
    (nodesBuilt source).filter (·.comment?.isNone) =
      statNodes c.body ++ [.block c.body, .chunk c] ∧
    (nodesBuilt source).filterMap Node.comment? = c.comments ∧
    Builds c.rebuild c (c.comments.map .comment ++
        (nodesBuilt source).filter (·.comment?.isNone)) := by
  have haccounts := accounts_of_ofSource h
  refine ⟨haccounts.nodes, haccounts.shown, ?_⟩
  rw [haccounts.nodes, ← List.append_assoc]
  exact c.builds_rebuild

theorem nodesBuilt_of_method :
    let source :=
      "function o:m(a) if a then f(i) elseif o then return end end -- done"
    ∃ c, ofSource source = .ok c ∧
      (nodesBuilt source).filter (·.comment?.isNone) =
        statNodes c.body ++ [.block c.body, .chunk c] ∧
      (nodesBuilt source).filterMap Node.comment? = c.comments ∧
      Builds c.rebuild c (c.comments.map .comment ++
          (nodesBuilt source).filter (·.comment?.isNone)) := by
  intro source
  obtain ⟨c, hsource⟩ : ∃ c, ofSource source = .ok c :=
    exists_of_isOk (by decide +kernel)
  exact ⟨c, hsource, nodesBuilt_of_ofSource hsource⟩

end Chunk

end LuaCore
