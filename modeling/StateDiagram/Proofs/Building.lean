import StateDiagram.Proofs.Levels

namespace StateDiagram

set_option autoImplicit true

open Text

variable {source : Source} {limit n depth : Nat}

/-- The place is that of `inside`, which stands in the source behind `line` on the line that
starts behind `lines`. -/
structure Place.Marks (source : Source) (place : Place) (lines line inside behind : List Char) :
    Prop where
  text_eq : source.text = lines ++ (line ++ (inside ++ behind))
  lines_end : lines = [] ∨ ∃ front, lines = front ++ ['\n']
  not_mem_line : '\n' ∉ line
  start_eq : place.span.start = byteSize (lines ++ line)
  stop_eq : place.span.stop = place.span.start + byteSize inside
  inside_eq : place.text = String.ofList inside
  line_eq : place.location.line = 1 + (lines ++ line).count '\n'
  column_eq : place.location.column = 1 + line.length

theorem Span.Within.exists_marks {span : Span} (h : span.Within source) :
    ∃ lines line inside behind, (source.locate span).Marks source lines line inside behind := by
  obtain ⟨before, inside, behind, ht, hstart, hstop⟩ := h.exists_text
  obtain ⟨lines, line, rfl, hn, hl, hc⟩ := exists_lastLine before
  have htake : takeBytes span.start source.text = lines ++ line := by
    rw [ht, ← hstart, takeBytes_byteSize_append]
  refine ⟨lines, line, inside, behind, ?_, hl, hn, hstart.symm, ?_, ?_, ?_, ?_⟩
  · rw [ht, List.append_assoc]
  · exact hstop.symm.trans (congrArg (· + byteSize inside) hstart)
  · rw [Source.locate, Source.slice, ht, ← hstart, ← hstop, slice_append]
  · rw [Source.locate, htake]
    rfl
  · rw [Source.locate, htake, ← hc]
    rfl

namespace Indexed

theorem run_enter_bind (build : Build α) (index limit : Nat) :
    (enter limit >>= fun _ => build).run ⟨index, limit⟩ =
      .error (.fault (.nestingTooDeep limit)) := by
  rw [run_bind, run_enter_limit]
  rfl

theorem follows_interior (h : depth + n = limit) :
    Follows source limit n depth (interior source limit (n + 1)) := by
  induction n generalizing depth with
  | zero =>
    -- No level is left, and whatever is to be built enters one first.
    obtain rfl : depth = limit := h
    exact ⟨fun _ => run_enter_bind .., fun _ => run_enter_bind .., fun _ => run_enter_bind ..⟩
  | succ n ih =>
    have hinner := ih (Nat.succ_add_eq_add_succ depth n ▸ h)
    have hd : depth < limit := by omega
    exact ⟨hinner.expression_succ hd, hinner.lambda_succ hd, hinner.group_succ hd⟩

/-- The builder gives what parsing gives, and then it stands behind the last token and has left
all levels. -/
theorem build_eq (limit : Nat) (source : Source) :
    build limit source = match source.parse limit with
      | .error fault => .error (.fault fault)
      | .ok tree => .ok (tree, ⟨source.tokens.length, 0⟩) := by
  have hinterior : Follows source limit limit 0 (interior source limit (limit + 1)) :=
    follows_interior (Nat.zero_add limit)
  have hrun := hinterior.statements none (Nat.zero_le _)
    (Nat.le_add_left source.tokens.length 0)
  have hcursor : source.cursorAt 0 = ⟨0, source.tokens⟩ := rfl
  rw [hcursor] at hrun
  rw [build, file, run_bind, Source.parse, Source.outline?]
  cases hread : readStatements (expressionWithin source limit) none ⟨0, source.tokens⟩ with
  | none =>
    rw [hrun.of_none hread]
    rfl
  | some found =>
    obtain ⟨nodes, next⟩ := found
    obtain ⟨stop, hstop, rfl, hrun⟩ := hrun.of_some hread
    -- Statements that no bracket ends are read up to the last token.
    have hend : stop = source.tokens.length := by
      rcases ((Level.all source limit).statements hread).statements_stop with
        hr | ⟨_, _, _, _, _, hc⟩
      · exact Nat.le_antisymm hstop (List.drop_eq_nil_iff.1 hr)
      · cases hc
    subst hend
    rw [hrun, ok_bind, run_node source.within_whole]
    simp only [Node.map]

end Indexed

/-- Parsing fails for the nesting only, and building by index never crashes. Each node of a tree
stands between two boundaries of the source, and knows its text, its line and its column. -/
theorem build_of_parse (limit : Nat) (text : String) :
    let source := Source.ofString text
    match SyntaxTree.parse limit text with
    | .error fault =>
      fault = .nestingTooDeep limit ∧ Indexed.build limit source = .error (.fault fault)
    | .ok tree =>
      Indexed.build limit source = .ok (tree, ⟨source.tokens.length, 0⟩) ∧
        ∀ node ∈ tree.preorder,
          node.info.span.Within source ∧ node.info.span.stop ≤ source.size ∧
            ∃ lines line inside behind, node.info.Marks source lines line inside behind := by
  intro source
  have hbuild := Indexed.build_eq limit source
  rw [Source.parse] at hbuild
  rw [SyntaxTree.parse, Source.parse]
  cases houtline : source.outline? limit with
  | none =>
    rw [houtline] at hbuild
    exact ⟨rfl, hbuild⟩
  | some outline =>
    rw [houtline] at hbuild
    refine ⟨hbuild, ?_⟩
    intro node hm
    rw [Node.preorder_map] at hm
    obtain ⟨inner, hinner, rfl⟩ := List.mem_map.1 hm
    have hw := (Source.nests_of_outline? houtline inner hinner).within
    rw [Node.info_map]
    exact ⟨hw, hw.boundary_stop.le, hw.exists_marks⟩

end StateDiagram
