import Mathlib.Data.List.Induction
import Storyworld.LineIndex
import Storyworld.Token.Lexer

namespace Storyworld

/-! Where a place in a source lies: its offset is the size of the text before it, its line counts the
line feeds there, and its column the characters behind the last of them. Two ways to find line and
column agree, the one a reader keeps up as it goes and the one that looks an offset up. -/

namespace Text

open Utf8

variable {a b : List Char}

@[simp] theorem size_nil : size [] = 0 := rfl

@[simp] theorem size_cons (c : Char) (cs : List Char) : size (c :: cs) = c.utf8Size + size cs := rfl

@[simp] theorem size_append (a b : List Char) : size (a ++ b) = size a + size b := by
  induction a with
  | nil => simp
  | cons c a ih => simp [ih, Nat.add_assoc]

/-- What two beginnings of a text have in common with their sizes. -/
theorem eq_of_size_eq {a' b' : List Char} (h : a ++ b = a' ++ b') (hs : size a = size a') :
    a = a' ∧ b = b' := by
  induction a generalizing a' with
  | nil =>
      cases a' with
      | nil => exact ⟨rfl, h⟩
      | cons c a' =>
          have hpos := c.utf8Size_pos
          simp only [size_nil, size_cons] at hs
          omega
  | cons c a ih =>
      cases a' with
      | nil =>
          have hpos := c.utf8Size_pos
          simp only [size_nil, size_cons] at hs
          omega
      | cons c' a' =>
          rw [List.cons_append, List.cons_append, List.cons.injEq] at h
          obtain ⟨rfl, h⟩ := h
          have htail : size a = size a' := by simpa using hs
          obtain ⟨rfl, rfl⟩ := ih h htail
          exact ⟨rfl, rfl⟩

/-! ## Cutting -/

theorem dropBytes?_append (a b : List Char) : dropBytes? (size a) (a ++ b) = some b := by
  induction a with
  | nil => simp [dropBytes?]
  | cons c a ih =>
      have hpos := c.utf8Size_pos
      obtain ⟨n, hn⟩ : ∃ n, size (c :: a) = n + 1 :=
        ⟨size (c :: a) - 1, by simp only [size_cons]; omega⟩
      have hrest : n + 1 - c.utf8Size = size a := by
        rw [← hn, size_cons]
        omega
      have hle : c.utf8Size ≤ n + 1 := by
        rw [← hn, size_cons]
        omega
      rw [hn, List.cons_append, dropBytes?, if_pos hle, hrest, ih]

theorem takeBytes?_append (a b : List Char) : takeBytes? (size a) (a ++ b) = some a := by
  induction a with
  | nil => simp [takeBytes?]
  | cons c a ih =>
      have hpos := c.utf8Size_pos
      obtain ⟨n, hn⟩ : ∃ n, size (c :: a) = n + 1 :=
        ⟨size (c :: a) - 1, by simp only [size_cons]; omega⟩
      have hrest : n + 1 - c.utf8Size = size a := by
        rw [← hn, size_cons]
        omega
      have hle : c.utf8Size ≤ n + 1 := by
        rw [← hn, size_cons]
        omega
      rw [hn, List.cons_append, takeBytes?, if_pos hle, hrest, ih, Option.map_some]

theorem slice?_append (a b c : List Char) :
    slice? (a ++ b ++ c) (size a) (size (a ++ b)) = some b := by
  rw [slice?, if_pos (by simp), List.append_assoc, dropBytes?_append, Option.bind_some]
  have hlength : size (a ++ b) - size a = size b := by simp
  rw [hlength, takeBytes?_append]

/-! ## Lines -/

/-- The characters behind the last line feed. -/
def lastLine (cs : List Char) : List Char :=
  (cs.reverse.takeWhile (· ≠ '\n')).reverse

@[simp] theorem lastLine_nil : lastLine [] = [] := rfl

theorem lastLine_concat (cs : List Char) (c : Char) :
    lastLine (cs ++ [c]) = if c = '\n' then [] else lastLine cs ++ [c] := by
  by_cases h : c = '\n' <;> simp [lastLine, h]

/-- A text is its lines up to the last line feed, and its last line. -/
theorem exists_lines (cs : List Char) : ∃ lines, cs = lines ++ lastLine cs ∧
    '\n' ∉ lastLine cs ∧ (lines = [] ∨ ∃ ls, lines = ls ++ ['\n']) := by
  induction cs using List.reverseRecOn with
  | nil => exact ⟨[], rfl, by simp, .inl rfl⟩
  | append_singleton cs c ih =>
      obtain ⟨lines, hcs, hline, hlines⟩ := ih
      by_cases hc : c = '\n'
      · refine ⟨cs ++ [c], ?_, ?_, .inr ⟨cs, by rw [hc]⟩⟩
        · simp [lastLine_concat, hc]
        · simp [lastLine_concat, hc]
      · refine ⟨lines, ?_, ?_, hlines⟩
        · rw [lastLine_concat, if_neg hc, ← List.append_assoc, ← hcs]
        · rw [lastLine_concat, if_neg hc]
          simp [hline, Ne.symm hc]

end Text

open Text Text.Utf8

/-! ## Counting along -/

namespace Place

theorem after_append (p : Place) (a b : List Char) : p.after (a ++ b) = (p.after a).after b :=
  List.foldl_append

/-- The place behind a text that stands at the beginning of a source. -/
theorem offset_after (p : Place) (cs : List Char) : (p.after cs).offset = p.offset + size cs := by
  induction cs generalizing p with
  | nil => rfl
  | cons c cs ih =>
      have hnext : (p.next c).offset = p.offset + c.utf8Size := by
        unfold next
        split <;> rfl
      rw [show p.after (c :: cs) = (p.next c).after cs from rfl, ih, hnext, size_cons, Nat.add_assoc]

theorem start_after (cs : List Char) :
    start.after cs = ⟨size cs, 1 + cs.count '\n', 1 + (lastLine cs).length⟩ := by
  induction cs using List.reverseRecOn with
  | nil => rfl
  | append_singleton cs c ih =>
      rw [after_append, ih, lastLine_concat]
      by_cases hc : c = '\n' <;> simp [after, next, hc, Nat.add_assoc]

end Place

/-! ## Looking up -/

namespace LineIndex

theorem startsAfter_append (offset : Nat) (a b : List Char) :
    startsAfter offset (a ++ b) = startsAfter offset a ++ startsAfter (offset + size a) b := by
  induction a generalizing offset with
  | nil => simp [startsAfter]
  | cons c a ih =>
      by_cases hc : c = '\n'
      · have hsize : c.utf8Size = 1 := by
          rw [hc]
          rfl
        simp [startsAfter, hc, ih, ← hsize, Nat.add_assoc]
      · simp [startsAfter, hc, ih, Nat.add_assoc]

theorem length_startsAfter (offset : Nat) (cs : List Char) :
    (startsAfter offset cs).length = cs.count '\n' := by
  induction cs generalizing offset with
  | nil => rfl
  | cons c cs ih =>
      by_cases hc : c = '\n' <;> simp [startsAfter, hc, ih]

/-- Lines begin behind the place from which they are looked for, and not behind the text. -/
theorem mem_startsAfter {offset n : Nat} {cs : List Char} (h : n ∈ startsAfter offset cs) :
    offset < n ∧ n ≤ offset + size cs := by
  induction cs generalizing offset with
  | nil => simp [startsAfter] at h
  | cons c cs ih =>
      have hpos := c.utf8Size_pos
      by_cases hc : c = '\n'
      · have hsize : c.utf8Size = 1 := by
          rw [hc]
          rfl
        simp only [startsAfter, hc, if_true, List.mem_cons] at h
        rcases h with rfl | h
        · simp only [size_cons]
          omega
        · have := ih h
          simp only [size_cons]
          omega
      · simp only [startsAfter, hc, if_false] at h
        have := ih h
        simp only [size_cons]
        omega

/-- Where a line begins, found by the line feeds before it. -/
theorem starts_count {before : List Char} (h : before = [] ∨ ∃ cs, before = cs ++ ['\n'])
    (after : List Char) :
    (ofSource (before ++ after)).starts[before.count '\n']? = some (size before) := by
  rw [ofSource, startsAfter_append]
  rcases h with rfl | ⟨cs, rfl⟩
  · rfl
  · have hsize : ('\n' : Char).utf8Size = 1 := rfl
    simp [startsAfter_append, startsAfter, length_startsAfter, hsize]

/-- The offset of every character, and of the end, is found on its line and column. -/
theorem lineColumn_size (before after : List Char) :
    (ofSource (before ++ after)).lineColumn (size before) =
      (1 + before.count '\n', 1 + (lastLine before).length) := by
  have hcount : (ofSource (before ++ after)).starts.countP (· ≤ size before) =
      1 + before.count '\n' := by
    have hbefore : (startsAfter 0 before).countP (· ≤ size before) = before.count '\n' := by
      rw [List.countP_eq_length.mpr, length_startsAfter]
      intro n hn
      simpa using (mem_startsAfter hn).2
    have hafter : (startsAfter (0 + size before) after).countP (· ≤ size before) = 0 := by
      rw [List.countP_eq_zero]
      intro n hn
      have := (mem_startsAfter hn).1
      simp only [decide_eq_true_eq]
      omega
    simp only [ofSource, startsAfter_append, List.countP_cons, List.countP_append, hbefore, hafter]
    simp [Nat.add_comm]
  obtain ⟨lines, hlines, hline, hends⟩ := exists_lines before
  have hstart : (ofSource (before ++ after)).starts[before.count '\n']? = some (size lines) := by
    have hnone : (lastLine before).count '\n' = 0 := List.count_eq_zero.mpr hline
    have hrows : before.count '\n' = lines.count '\n' := by
      conv_lhs => rw [hlines, List.count_append, hnone, Nat.add_zero]
    have hsplit : before ++ after = lines ++ (lastLine before ++ after) := by
      conv_lhs => rw [hlines, List.append_assoc]
    rw [hrows, hsplit]
    exact starts_count hends _
  have hsource : (ofSource (before ++ after)).source = lines ++ lastLine before ++ after := by
    rw [ofSource, ← hlines]
  have hstop : min (size before) (size (lines ++ lastLine before ++ after)) =
      size (lines ++ lastLine before) := by
    rw [← hlines, size_append]
    omega
  simp only [lineColumn, hcount, Nat.add_sub_cancel_left, hstart, Option.getD_some, hstop, hsource,
    slice?_append]
  rw [Nat.add_comm 1, Nat.add_comm 1]

end LineIndex

end Storyworld

namespace Storyworld

/-! ## Accurate spans

Spans that say the truth about a source. -/

open Text Text.Utf8

/-- Whether an offset falls between two characters of a text, or on one of its ends. -/
def Text.IsBoundary (cs : List Char) (n : Nat) : Prop :=
  ∃ before after, cs = before ++ after ∧ size before = n

/-- A span that lies in a source, begins and ends on character boundaries, and tells the line and the
column on which it begins: one more than the line feeds before it, and one more than the characters
behind the last of these. That is what looking up its beginning gives, too. -/
structure Span.Accurate (source : List Char) (s : Span) : Prop where
  ordered : s.start ≤ s.stop
  inside : s.stop ≤ size source
  starts : IsBoundary source s.start
  stops : IsBoundary source s.stop
  place : ∀ before after, source = before ++ after → size before = s.start →
    s.line = 1 + before.count '\n' ∧ s.column = 1 + (lastLine before).length
  indexed : (s.line, s.column) = (LineIndex.ofSource source).lineColumn s.start

namespace Span.Accurate

variable {source before covered after : List Char} {a b : Span}

/-- A span over a part of a source, begun where a reader stands. -/
theorem between (h : source = before ++ covered ++ after) :
    (Span.between (Place.start.after before) (size (before ++ covered))).Accurate source := by
  have hplace := Place.start_after before
  have hrest : source = before ++ (covered ++ after) := by rw [h, List.append_assoc]
  constructor
  · simp [Span.between, hplace]
  · simp [Span.between, h]
  · exact ⟨before, covered ++ after, hrest, by simp [Span.between, hplace]⟩
  · exact ⟨before ++ covered, after, h, rfl⟩
  · intro before' after' h' hs
    have hsize : size before' = size before := by simpa [Span.between, hplace] using hs
    obtain ⟨rfl, -⟩ := eq_of_size_eq (h'.symm.trans hrest) hsize
    simp [Span.between, hplace]
  · simp only [Span.between, hplace]
    rw [hrest, LineIndex.lineColumn_size]

theorem origin : Span.origin.Accurate source :=
  between (show source = [] ++ [] ++ source from rfl)

/-- From one place to another, in this order or the other. -/
theorem upTo (ha : a.Accurate source) (hb : b.Accurate source) : (a.upTo b).Accurate source := by
  refine ⟨Nat.le_max_right _ _, ?_, ha.starts, ?_, ha.place, ha.indexed⟩
  · exact Nat.max_le.mpr ⟨hb.inside, Nat.le_trans ha.ordered ha.inside⟩
  · rcases Nat.le_total b.stop a.start with h | h
    · simpa [Span.upTo, Nat.max_eq_right h] using ha.starts
    · simpa [Span.upTo, Nat.max_eq_left h] using hb.stops

end Span.Accurate

/-! ## Tokens -/

/-- A token that is written in a source where its span says, as the span says. -/
def Token.WrittenIn (source : List Char) (t : Token) : Prop :=
  ∃ before after, source = before ++ t.text.toList ++ after ∧
    t.span = .between (Place.start.after before) (size (before ++ t.text.toList))

namespace Token.WrittenIn

variable {source : List Char} {t : Token}

theorem accurate (h : t.WrittenIn source) : t.span.Accurate source := by
  obtain ⟨before, after, hsource, hspan⟩ := h
  rw [hspan]
  exact .between hsource

/-- The place behind a token, told from its own text and span, is accurate as well. -/
theorem stop_accurate (h : t.WrittenIn source) : t.stop.Accurate source := by
  obtain ⟨before, after, hsource, hspan⟩ := h
  have hstop : t.stop =
      .between (Place.start.after (before ++ t.text.toList)) (size (before ++ t.text.toList ++ [])) := by
    have hplace : (⟨t.span.start, t.span.line, t.span.column⟩ : Place) =
        Place.start.after before := by rw [hspan]; rfl
    have hoffset : (Place.start.after (before ++ t.text.toList)).offset =
        size (before ++ t.text.toList) := by rw [Place.start_after]
    simp only [Token.stop, hplace, ← Place.after_append, List.append_nil, Span.between, hoffset]
    rw [hspan]
    rfl
  rw [hstop]
  have hempty : source = before ++ t.text.toList ++ [] ++ after := by simpa using hsource
  exact .between hempty

end Token.WrittenIn

end Storyworld
