import Mathlib.Data.List.DropRight
import Storyworld.Proofs.Position.Place

namespace Storyworld

/-! The lines of a source and what the index tells about them: where they begin, which line a search
through these offsets leads to, in which order places are found, and what the text of each line is. A
line stands behind nothing or a line feed, and before nothing or a line feed. -/

open Text Text.Utf8

namespace Text

/-- A stretch between two texts that is a whole line, less the line feed that ends it. -/
structure IsLine (before line after : List Char) : Prop where
  begins : before = [] ∨ ∃ cs, before = cs ++ ['\n']
  whole : '\n' ∉ line
  ends : after = [] ∨ ∃ cs, after = '\n' :: cs

variable {source before line after a b cs ds : List Char} {m n : Nat} {p : Char → Bool}

/-- The line in which a text is cut in two. -/
theorem isLine_cut (front back : List Char) : ∃ before after,
    front = before ++ lastLine front ∧
      back = back.takeWhile (· ≠ '\n') ++ after ∧
      IsLine before (lastLine front ++ back.takeWhile (· ≠ '\n')) after := by
  obtain ⟨before, hfront, hline, hbegins⟩ := exists_lines front
  refine ⟨before, back.dropWhile (· ≠ '\n'), hfront, List.takeWhile_append_dropWhile.symm, hbegins,
    ?_, ?_⟩
  · intro hmem
    rcases List.mem_append.mp hmem with hmem | hmem
    · exact hline hmem
    · simpa using List.mem_takeWhile_imp hmem
  · cases hrest : back.dropWhile (· ≠ '\n') with
    | nil => exact .inl rfl
    | cons c cs =>
        have hc := List.head_dropWhile_not (· ≠ '\n') (by rw [hrest]; exact List.cons_ne_nil c cs)
        simp only [hrest, List.head_cons] at hc
        exact .inr ⟨cs, by simpa using hc⟩

theorem exists_count (h : n ≤ source.count '\n') :
    ∃ front back, source = front ++ back ∧ front.count '\n' = n := by
  induction source generalizing n with
  | nil => exact ⟨[], [], rfl, (Nat.le_zero.mp h).symm⟩
  | cons c source ih =>
      cases n with
      | zero => exact ⟨[], c :: source, rfl, rfl⟩
      | succ n =>
          by_cases hc : c = '\n'
          · subst hc
            obtain ⟨front, back, rfl, hcount⟩ := ih (n := n) (by simpa using h)
            exact ⟨'\n' :: front, back, rfl, by simp [hcount]⟩
          · obtain ⟨front, back, rfl, hcount⟩ := ih (n := n + 1) (by simpa [hc] using h)
            exact ⟨c :: front, back, rfl, by simp [hcount, hc]⟩

/-- There is a line behind every number of line feeds that a text has. -/
theorem exists_isLine (h : n ≤ source.count '\n') : ∃ before line after,
    source = before ++ line ++ after ∧ before.count '\n' = n ∧ IsLine before line after := by
  obtain ⟨front, back, rfl, hcount⟩ := exists_count h
  obtain ⟨before, after, hfront, hback, hline⟩ := isLine_cut front back
  have hlast : (lastLine front).count '\n' = 0 :=
    List.count_eq_zero.mpr fun hmem => hline.whole (List.mem_append_left _ hmem)
  refine ⟨before, _, after, ?_, ?_, hline⟩
  · conv_lhs => rw [hfront, hback]
    simp only [List.append_assoc]
  · rw [← hcount]
    conv_rhs => rw [hfront, List.count_append, hlast, Nat.add_zero]

theorem lastLine_append (h : '\n' ∉ b) : lastLine (a ++ b) = lastLine a ++ b := by
  have hall : ∀ c ∈ b.reverse, decide (c ≠ '\n') = true := by
    intro c hc
    have hne : c ≠ '\n' := fun heq => h (heq ▸ List.mem_reverse.mp hc)
    exact decide_eq_true hne
  rw [lastLine, List.reverse_append, List.takeWhile_append_of_pos hall, List.reverse_append,
    List.reverse_reverse, lastLine]

/-- Of two boundaries in a text, what stands before the earlier one begins what stands before the
later one. -/
theorem IsBoundary.exists_between (hm : IsBoundary source m) (hn : IsBoundary source n)
    (h : m < n) : ∃ before between after, source = before ++ between ++ after ∧ between ≠ [] ∧
      size before = m ∧ size (before ++ between) = n := by
  obtain ⟨before, rest, hsource, rfl⟩ := hm
  obtain ⟨before', after, hsource', rfl⟩ := hn
  rcases List.append_eq_append_iff.mp (hsource.symm.trans hsource') with
    ⟨between, rfl, -⟩ | ⟨between, rfl, -⟩
  · refine ⟨before, between, after, hsource', ?_, rfl, rfl⟩
    rintro rfl
    simp at h
  · rw [size_append] at h
    omega

/-! ## What is cut off a line -/

theorem trimEnd_append (h : ∀ c ∈ ds, p c) : trimEnd p (cs ++ ds) = trimEnd p cs := by
  induction ds using List.reverseRecOn with
  | nil => rw [List.append_nil]
  | append_singleton ds d ih =>
      rw [← List.append_assoc]
      exact (List.rdropWhile_concat_pos p _ d (h d (by simp))).trans
        (ih fun c hc => h c (by simp [hc]))

/-- A text is what stays and what is cut off, and what stays could not be cut further. -/
theorem trimEnd_spec (p : Char → Bool) (cs : List Char) : ∃ ending,
    cs = trimEnd p cs ++ ending ∧ (∀ c ∈ ending, p c) ∧ ∀ c ∈ (trimEnd p cs).getLast?, ¬ p c := by
  refine ⟨cs.rtakeWhile p, List.rdropWhile_append_rtakeWhile.symm, ?_, ?_⟩
  · intro c hc
    exact List.mem_rtakeWhile_imp hc
  · intro c hc
    obtain ⟨hne, rfl⟩ := List.mem_getLast?_eq_getLast hc
    exact List.rdropWhile_last_not p cs hne

end Text

namespace LineIndex

variable {source before line after : List Char} {offset n : Nat}

/-! ## Where lines begin -/

theorem mem_startsAfter_cons {c : Char} {cs : List Char} : n ∈ startsAfter offset (c :: cs) ↔
    c = '\n' ∧ n = offset + 1 ∨ n ∈ startsAfter (offset + c.utf8Size) cs := by
  by_cases hc : c = '\n'
  · subst hc
    simp only [startsAfter, if_true, List.mem_cons, true_and]
    rfl
  · simp [startsAfter, hc]

theorem mem_startsAfter_iff {cs : List Char} : n ∈ startsAfter offset cs ↔
    ∃ before after, cs = before ++ '\n' :: after ∧ n = offset + size before + 1 := by
  induction cs generalizing offset with
  | nil => simp [startsAfter]
  | cons c cs ih =>
      have hsize (before : List Char) : offset + c.utf8Size + size before + 1 =
          offset + size (c :: before) + 1 := by
        rw [size_cons, Nat.add_assoc offset]
      simp only [mem_startsAfter_cons, ih, hsize]
      constructor
      · rintro (⟨rfl, rfl⟩ | ⟨before, after, rfl, rfl⟩)
        · exact ⟨[], cs, rfl, rfl⟩
        · exact ⟨c :: before, after, rfl, rfl⟩
      · rintro ⟨_ | ⟨d, before⟩, after, hsplit, rfl⟩
        · exact .inl ⟨(List.cons.inj hsplit).1, rfl⟩
        · obtain ⟨rfl, rfl⟩ := List.cons.inj hsplit
          exact .inr ⟨before, after, rfl, rfl⟩

theorem pairwise_startsAfter (offset : Nat) (cs : List Char) :
    (startsAfter offset cs).Pairwise (· < ·) := by
  induction cs generalizing offset with
  | nil => exact .nil
  | cons c cs ih =>
      by_cases hc : c = '\n'
      · simp only [startsAfter, hc, if_true]
        exact .cons (fun n hn => (mem_startsAfter hn).1) (ih _)
      · simp only [startsAfter, hc, if_false]
        exact ih _

theorem pairwise_starts (source : List Char) : (ofSource source).starts.Pairwise (· < ·) :=
  .cons (fun _ hn => (mem_startsAfter hn).1) (pairwise_startsAfter 0 source)

theorem mem_starts_iff : n ∈ (ofSource source).starts ↔
    n = 0 ∨ ∃ before after, source = before ++ '\n' :: after ∧ n = size before + 1 := by
  simp only [ofSource, List.mem_cons, mem_startsAfter_iff, Nat.zero_add]

theorem le_size_of_mem_starts (h : n ∈ (ofSource source).starts) : n ≤ size source := by
  rcases List.mem_cons.mp h with rfl | h
  · exact Nat.zero_le _
  · simpa using (mem_startsAfter h).2

theorem length_starts (source : List Char) :
    (ofSource source).starts.length = source.count '\n' + 1 := by
  rw [ofSource, List.length_cons, length_startsAfter]

/-! ## Searching

A line can be looked up by bisection, as lines begin at increasing offsets. Such a search answers in
one of two ways, and both lead to the last line that does not begin behind the offset. -/

/-- What a search for a number in an increasing list may answer: where the number stands, or else
where it would have to be put in. -/
inductive Sought (n : Nat) : List Nat → Except Nat Nat → Prop where
  | stands (before after : List Nat) : Sought n (before ++ n :: after) (.ok before.length)
  | missing (before after : List Nat) (below : ∀ m ∈ before, m < n) (above : ∀ m ∈ after, n < m) :
      Sought n (before ++ after) (.error before.length)

/-- The row an answer leads to: the one found, or the last one before the place for the number. -/
def rowOf : Except Nat Nat → Nat
  | .ok row => row
  | .error row => row - 1

theorem exists_sought (offset : Nat) {starts : List Nat} (h : starts.Pairwise (· < ·)) :
    ∃ answer, Sought offset starts answer := by
  induction h with
  | nil => exact ⟨_, .missing [] [] (by simp) (by simp)⟩
  | @cons start starts hstart _ ih =>
      rcases Nat.lt_trichotomy offset start with hlt | rfl | hgt
      · refine ⟨_, .missing [] (start :: starts) (by simp) ?_⟩
        rintro m (_ | ⟨_, hm⟩)
        · exact hlt
        · exact Nat.lt_trans hlt (hstart m hm)
      · exact ⟨_, .stands [] starts⟩
      · obtain ⟨_, hsought⟩ := ih
        cases hsought with
        | stands before after => exact ⟨_, .stands (start :: before) after⟩
        | missing before after below above =>
            exact ⟨_, .missing (start :: before) after (List.forall_mem_cons.mpr ⟨hgt, below⟩) above⟩

theorem rowOf_sought {starts : List Nat} {answer : Except Nat Nat}
    (h : starts.Pairwise (· < ·)) (hsought : Sought offset starts answer) :
    rowOf answer = starts.countP (· ≤ offset) - 1 := by
  have hbelow {ns : List Nat} (hns : ∀ m ∈ ns, m < offset) : ns.countP (· ≤ offset) = ns.length :=
    List.countP_eq_length.mpr fun m hm => decide_eq_true (Nat.le_of_lt (hns m hm))
  have habove {ns : List Nat} (hns : ∀ m ∈ ns, offset < m) : ns.countP (· ≤ offset) = 0 :=
    List.countP_eq_zero.mpr fun m hm => by simpa using hns m hm
  cases hsought with
  | stands before after =>
      obtain ⟨-, hcons, hbefore⟩ := List.pairwise_append.mp h
      rw [List.countP_append, List.countP_cons, hbelow fun m hm => hbefore m hm offset (by simp),
        habove (List.pairwise_cons.mp hcons).1]
      simp [rowOf]
  | missing before after below above =>
      rw [List.countP_append, hbelow below, habove above]
      rfl

/-! ## The order of places -/

theorem lineColumn_lt {between : List Char} (h : between ≠ []) :
    Prod.Lex (· < ·) (· < ·)
      ((ofSource (before ++ between ++ after)).lineColumn (size before))
      ((ofSource (before ++ between ++ after)).lineColumn (size (before ++ between))) := by
  have hlater := lineColumn_size (before ++ between) after
  have hearlier := lineColumn_size before (between ++ after)
  rw [← List.append_assoc] at hearlier
  rw [hearlier, hlater, List.count_append]
  -- A line feed in between puts the later place on a later line, whatever the columns are.
  by_cases hfeed : '\n' ∈ between
  · have hpos : 0 < between.count '\n' := List.count_pos_iff.mpr hfeed
    exact .left _ _ (by omega)
  · have hpos : 0 < between.length := List.length_pos_iff.mpr h
    rw [List.count_eq_zero.mpr hfeed, Nat.add_zero, lastLine_append hfeed, List.length_append]
    exact .right _ (by omega)

theorem lineColumn_of_size_le (h : size source ≤ offset) :
    (ofSource source).lineColumn offset = (ofSource source).lineColumn (size source) := by
  have hall {stop : Nat} (hstop : size source ≤ stop) :
      (ofSource source).starts.countP (· ≤ stop) = (ofSource source).starts.length :=
    List.countP_eq_length.mpr fun n hn =>
      decide_eq_true (Nat.le_trans (le_size_of_mem_starts hn) hstop)
  have hsource : (ofSource source).source = source := rfl
  simp only [lineColumn, hall h, hall (Nat.le_refl _), hsource, Nat.min_eq_right h, Nat.min_self]

/-! ## The text of lines -/

theorem starts_of_isLine (h : IsLine before line after) :
    (ofSource (before ++ line ++ after)).starts[before.count '\n']? = some (size before) := by
  rw [List.append_assoc]
  exact starts_count h.begins (line ++ after)

/-- From where one line begins to where the next one does, or to the end of the source. -/
theorem slice?_line (h : IsLine before line after) : ∃ ending, (∀ c ∈ ending, c = '\n') ∧
    slice? (before ++ line ++ after) (size before)
      ((ofSource (before ++ line ++ after)).starts[before.count '\n' + 1]?.getD
        (size (before ++ line ++ after))) = some (line ++ ending) := by
  have hflat : line.count '\n' = 0 := List.count_eq_zero.mpr h.whole
  rcases h.ends with rfl | ⟨cs, rfl⟩
  · refine ⟨[], by simp, ?_⟩
    have hnone : (ofSource (before ++ line ++ [])).starts[before.count '\n' + 1]? = none := by
      rw [List.getElem?_eq_none_iff, length_starts]
      simp [hflat]
    rw [hnone, Option.getD_none]
    simpa using slice?_append before line []
  · refine ⟨['\n'], by simp, ?_⟩
    have hcount : (before ++ line ++ ['\n']).count '\n' = before.count '\n' + 1 := by
      simp [hflat]
    have hbegins : before ++ line ++ ['\n'] = [] ∨ ∃ ds, before ++ line ++ ['\n'] = ds ++ ['\n'] :=
      .inr ⟨_, rfl⟩
    have hstart := starts_count hbegins cs
    rw [hcount, List.append_assoc, List.singleton_append] at hstart
    rw [hstart, Option.getD_some]
    simpa using slice?_append before (line ++ ['\n']) cs

theorem lineText_of_isLine (h : IsLine before line after) :
    (ofSource (before ++ line ++ after)).lineText (before.count '\n' + 1) =
      trimEnd (fun c => c = '\r' || c = '\n') line := by
  obtain ⟨ending, hending, hslice⟩ := slice?_line h
  rw [lineText, Nat.add_sub_cancel, starts_of_isLine h]
  simp only
  rw [show (ofSource (before ++ line ++ after)).source = before ++ line ++ after from rfl, hslice,
    Option.getD_some]
  exact trimEnd_append fun c hc => by simp [hending c hc]

/-- The text of a line is always cut where characters meet. -/
theorem isSome_slice?_starts {start : Nat}
    (h : (ofSource source).starts[n - 1]? = some start) :
    (slice? source start ((ofSource source).starts[n]?.getD (size source))).isSome := by
  cases n with
  | zero =>
      have hstart : start = 0 := (Option.some.inj h).symm
      subst hstart
      simp [ofSource, slice?, dropBytes?, takeBytes?]
  | succ n =>
      have hn : n ≤ source.count '\n' := by
        have hlt := (List.getElem?_eq_some_iff.mp h).1
        rw [length_starts] at hlt
        omega
      obtain ⟨before, line, after, rfl, rfl, hline⟩ := exists_isLine hn
      obtain ⟨ending, -, hslice⟩ := slice?_line hline
      rw [Nat.add_sub_cancel, starts_of_isLine hline] at h
      cases h
      rw [hslice]
      rfl

theorem lineText_spec (hfirst : 1 ≤ n) (hlast : n ≤ (ofSource source).count) :
    ∃ before line after ending, source = before ++ line ++ after ∧ IsLine before line after ∧
      before.count '\n' = n - 1 ∧ line = (ofSource source).lineText n ++ ending ∧
      (∀ c ∈ ending, c = '\r' ∨ c = '\n') ∧
      ∀ c ∈ ((ofSource source).lineText n).getLast?, ¬ (c = '\r' ∨ c = '\n') := by
  rw [count, length_starts] at hlast
  obtain ⟨before, line, after, rfl, hcount, hline⟩ :=
    exists_isLine (n := n - 1) (Nat.sub_le_of_le_add hlast)
  have hn : n = before.count '\n' + 1 := by omega
  obtain ⟨ending, hsplit, hends, hstays⟩ := trimEnd_spec (fun c => c = '\r' || c = '\n') line
  rw [← lineText_of_isLine hline, ← hn] at hsplit hstays
  refine ⟨before, line, after, ending, rfl, hline, hcount, hsplit, ?_, ?_⟩
  · simpa using hends
  · simpa using hstays

theorem lineText_of_count_lt (h : (ofSource source).count < n) :
    (ofSource source).lineText n = [] := by
  have hnone : (ofSource source).starts[n - 1]? = none :=
    List.getElem?_eq_none_iff.mpr (Nat.le_sub_one_of_lt h)
  rw [lineText, hnone]

/-! ## The whole index -/

/-- An index that tells the truth about the lines of a source. -/
structure Faithful (source : List Char) (x : LineIndex) : Prop where
  increasing : x.starts.Pairwise (· < ·)
  /-- Lines begin at the beginning and just behind every line feed, and nowhere else. -/
  begins : ∀ n, n ∈ x.starts ↔
    n = 0 ∨ ∃ before after, source = before ++ '\n' :: after ∧ n = size before + 1
  /-- Whichever way a search through the beginnings answers, it finds the line. -/
  sought : ∀ offset, (∃ answer, Sought offset x.starts answer) ∧
    ∀ answer, Sought offset x.starts answer → (x.lineColumn offset).1 = rowOf answer + 1
  /-- A line is counted by the line feeds before a place, a column by the characters behind the last
  of them. -/
  place : ∀ before after, source = before ++ after →
    x.lineColumn (size before) = (1 + before.count '\n', 1 + (lastLine before).length)
  ordered : ∀ a b, IsBoundary source a → IsBoundary source b → a < b →
    Prod.Lex (· < ·) (· < ·) (x.lineColumn a) (x.lineColumn b)
  clamped : ∀ offset, size source < offset → x.lineColumn offset = x.lineColumn (size source)
  /-- Every line is cut out where characters meet. -/
  cut : ∀ n start, x.starts[n - 1]? = some start →
    (slice? source start (x.starts[n]?.getD (size source))).isSome
  /-- A line is what stands between two line feeds, without the line ends it closes with. -/
  text : ∀ n, 1 ≤ n → n ≤ x.count → ∃ before line after ending,
    source = before ++ line ++ after ∧ IsLine before line after ∧ before.count '\n' = n - 1 ∧
      line = x.lineText n ++ ending ∧ (∀ c ∈ ending, c = '\r' ∨ c = '\n') ∧
      ∀ c ∈ (x.lineText n).getLast?, ¬ (c = '\r' ∨ c = '\n')
  beyond : ∀ n, x.count < n → x.lineText n = []

/-- Empty lines, a line feed at the end of the source and characters of several bytes are no
exceptions. -/
theorem ofSource_faithful (source : List Char) : (ofSource source).Faithful source where
  increasing := pairwise_starts source
  begins _ := mem_starts_iff
  sought offset := by
    refine ⟨exists_sought offset (pairwise_starts source), fun answer hsought => ?_⟩
    rw [rowOf_sought (pairwise_starts source) hsought, lineColumn]
  place := by
    rintro before after rfl
    exact lineColumn_size before after
  ordered := by
    intro a b ha hb hlt
    obtain ⟨before, between, after, rfl, hne, rfl, rfl⟩ := ha.exists_between hb hlt
    exact lineColumn_lt hne
  clamped _ hoffset := lineColumn_of_size_le (Nat.le_of_lt hoffset)
  cut _ _ := isSome_slice?_starts
  text _ := lineText_spec
  beyond _ := lineText_of_count_lt

/-- A character of two bytes, a line that ends in two characters, an empty line, and another one
behind the last line feed. -/
example : (ofSource "é x\r\n\ny\n".toList).starts = [0, 6, 7, 9] ∧
    (ofSource "é x\r\n\ny\n".toList).lineColumn 3 = (1, 3) ∧
    (ofSource "é x\r\n\ny\n".toList).lineText 1 = "é x".toList := by
  cbv

end LineIndex

end Storyworld
