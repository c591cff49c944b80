import Storyworld.Proofs.Position.Lines
import Storyworld.Report

namespace Storyworld

/-! Messages are drawn under the text they are about: the line and the column of a span are where its
text stands in the source, and the carets stand below that text. -/

open Text Text.Utf8

namespace LineIndex

/-- An offset falls on one of the lines there are. -/
theorem lineColumn_bounds (source : List Char) (offset : Nat) :
    1 ≤ ((ofSource source).lineColumn offset).1 ∧
      ((ofSource source).lineColumn offset).1 ≤ (ofSource source).count ∧
      1 ≤ ((ofSource source).lineColumn offset).2 := by
  have hle := List.countP_le_length (p := (· ≤ offset)) (l := (ofSource source).starts)
  have hpos : 0 < (ofSource source).starts.length := Nat.succ_pos _
  simp only [lineColumn, count]
  omega

end LineIndex

namespace Report

/-- A message in three rows: where it is and what it says, the line it is about, and carets from a
column of that line on. -/
def drawn (path severity message : String) (line column : Nat) (text : List Char) (carets : Nat) :
    String :=
  let gutter := toString line
  let pad := times gutter.length ' '
  s!"{path}:{line}:{column}: {severity}: {message}" ++ "\n" ++
    (s!" {gutter} | " ++ String.ofList text) ++ "\n" ++
    (s!" {pad} | " ++ times (column - 1) ' ' ++ times carets '^')

theorem caretCount_eq (spanText lineText : List Char) (column : Nat) :
    caretCount spanText lineText column =
      max 1 (min (spanText.takeWhile (· ≠ '\n')).length (lineText.drop (column - 1)).length) := by
  rw [caretCount, List.length_drop]
  omega

theorem render_eq_drawn (path severity message : String) (source : List Char) (span : Span) :
    let index := LineIndex.ofSource source
    let place := index.lineColumn span.start
    render path source severity message span = drawn path severity message place.1 place.2
      (index.lineText place.1) (caretCount (span.text source) (index.lineText place.1) place.2) := by
  simp [render, drawn, String.append_assoc, ← String.toList_inj, toString]

/-- Whatever a message is about, it is drawn under a line of the source, which is cut out where
characters meet, with at least one caret. Where its span begins between two characters the line is
the one they are on, without the line end, and the carets stand under the span, as far as it goes on
this line. -/
theorem render_points (path severity message : String) (source : List Char) (span : Span) :
    ∃ line column text carets,
      render path source severity message span =
        drawn path severity message line column text carets ∧
      1 ≤ line ∧ line ≤ (LineIndex.ofSource source).count ∧ 1 ≤ column ∧ 1 ≤ carets ∧
      (∃ start, (LineIndex.ofSource source).starts[line - 1]? = some start ∧
        (slice? source start
          ((LineIndex.ofSource source).starts[line]?.getD (size source))).isSome) ∧
      ∀ front back, source = front ++ back → size front = span.start →
        line = 1 + front.count '\n' ∧ column = 1 + (lastLine front).length ∧
        (∃ ending, lastLine front ++ back.takeWhile (· ≠ '\n') = text ++ ending ∧
          (∀ c ∈ ending, c = '\r' ∨ c = '\n') ∧
          ∀ c ∈ text.getLast?, ¬ (c = '\r' ∨ c = '\n')) ∧
        carets = max 1 (min ((span.text source).takeWhile (· ≠ '\n')).length
          (text.drop (column - 1)).length) ∧
        (column - 1 < text.length → column - 1 + carets ≤ text.length) := by
  obtain ⟨hfirst, hlast, hcolumn⟩ := LineIndex.lineColumn_bounds source span.start
  refine ⟨_, _, _, _, render_eq_drawn path severity message source span, hfirst, hlast, hcolumn,
    ?_, ?_, ?_⟩
  · rw [caretCount_eq]
    exact Nat.le_max_left _ _
  · have hstart := List.getElem?_eq_getElem (l := (LineIndex.ofSource source).starts)
      (i := ((LineIndex.ofSource source).lineColumn span.start).1 - 1)
      (Nat.lt_of_lt_of_le (Nat.sub_lt hfirst Nat.one_pos) hlast)
    exact ⟨_, hstart, LineIndex.isSome_slice?_starts hstart⟩
  · rintro front back rfl hfront
    obtain ⟨before, after, hbefore, hback, hline⟩ := isLine_cut front back
    have hplace := LineIndex.lineColumn_size front back
    rw [hfront] at hplace
    have hcount : front.count '\n' = before.count '\n' := by
      have hflat : (lastLine front).count '\n' = 0 :=
        List.count_eq_zero.mpr fun hmem => hline.whole (List.mem_append_left _ hmem)
      conv_lhs => rw [hbefore, List.count_append, hflat, Nat.add_zero]
    have htext : (LineIndex.ofSource (front ++ back)).lineText (1 + front.count '\n') =
        trimEnd (fun c => c = '\r' || c = '\n')
          (lastLine front ++ back.takeWhile (· ≠ '\n')) := by
      have hsource : front ++ back =
          before ++ (lastLine front ++ back.takeWhile (· ≠ '\n')) ++ after := by
        conv_lhs => rw [hbefore, hback]
        simp only [List.append_assoc]
      rw [hcount, hsource, Nat.add_comm, LineIndex.lineText_of_isLine hline]
    simp only [hplace, htext, caretCount_eq, true_and]
    obtain ⟨ending, hsplit, hends, hstays⟩ := trimEnd_spec (fun c => c = '\r' || c = '\n')
      (lastLine front ++ back.takeWhile (· ≠ '\n'))
    refine ⟨⟨ending, hsplit, ?_, ?_⟩, ?_⟩
    · simpa using hends
    · simpa using hstays
    · rw [List.length_drop]
      omega

end Report

end Storyworld
