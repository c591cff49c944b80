import Storyworld.LineIndex
import Storyworld.Outcome

namespace Storyworld.Report

/-! Messages for people: where the trouble is, the line it is on, and carets under it. -/

/-- `text` as often as `n` says. -/
def times (n : Nat) (c : Char) : String :=
  String.ofList (List.replicate n c)

/-- How many carets a span gets under a line: as many as it has characters on that line, but at
least one. -/
def caretCount (spanText lineText : List Char) (column : Nat) : Nat :=
  let wanted := (spanText.takeWhile (· ≠ '\n')).length
  let room := lineText.length - (column - 1)
  min (max wanted 1) (max room 1)

/-- A message about a span. Line and column are told from where the span starts. -/
def render (path : String) (source : List Char) (severity message : String) (span : Span) :
    String :=
  let index := LineIndex.ofSource source
  let (line, column) := index.lineColumn span.start
  let text := index.lineText line
  let gutter := toString line
  let pad := times gutter.length ' '
  let carets := times (caretCount (span.text source) text column) '^'
  s!"{path}:{line}:{column}: {severity}: {message}\n {gutter} | " ++ String.ofList text ++
    s!"\n {pad} | " ++ times (column - 1) ' ' ++ carets

def ofFault (path : String) (source : List Char) (fault : Fault) : String :=
  render path source "error" fault.message fault.span

def ofLint (path : String) (source : List Char) (lint : Lint) : String :=
  render path source "warning" lint.message lint.span

end Storyworld.Report
